import Mathlib.Data.List.Nodup
import Mathlib.Data.List.Basic

/-!
# Ordered forests with keyed items

A forest is a row of siblings. Each sibling is a leaf, or a node that owns a
row of its own, and each carries a key. The row is built the way a pointer DOM
builds it: *first child* and *next sibling*, so a single recursion with three
cases visits the whole structure.

A `Cursor` is one item together with everything that can be asked of it without
looking at the rest of the forest: its key, its payload, the row below it, and
the chain of nodes that enclose it (nearest first).
-/

/-- A row of siblings, keyed by `ι`, with payload `α` on nodes and `β` on leaves. -/
inductive Forest (ι α β : Type) where
  | nil
  | leaf (key : ι) (label : β) (rest : Forest ι α β)
  | node (key : ι) (label : α) (kids rest : Forest ι α β)
deriving DecidableEq, Repr

namespace Forest

variable {ι κ α β : Type}

/-- Every key of the forest, in document order. -/
def keys : Forest ι α β → List ι
  | .nil => []
  | .leaf i _ rest => i :: rest.keys
  | .node i _ kids rest => i :: (kids.keys ++ rest.keys)

/-- Relabel the keys. -/
def mapKeys (g : ι → κ) : Forest ι α β → Forest κ α β
  | .nil => .nil
  | .leaf i b rest => .leaf (g i) b (rest.mapKeys g)
  | .node i a kids rest => .node (g i) a (kids.mapKeys g) (rest.mapKeys g)

/-- The forest without its keys. -/
def shape (f : Forest ι α β) : Forest Unit α β := f.mapKeys (fun _ => ())

/-- Does the row itself (not the rows below it) hold a node? -/
def hasNode : Forest ι α β → Bool
  | .nil => false
  | .leaf _ _ rest => rest.hasNode
  | .node _ _ _ _ => true

/-- The leaves and nodes of the forest that satisfy a test on the leaf payload. -/
def keysWhere (p : β → Bool) : Forest ι α β → List ι
  | .nil => []
  | .leaf i b rest => if p b then i :: rest.keysWhere p else rest.keysWhere p
  | .node i _ kids rest => i :: (kids.keysWhere p ++ rest.keysWhere p)

@[simp] theorem keys_nil : (nil : Forest ι α β).keys = [] := rfl

@[simp] theorem keys_leaf (i : ι) (b : β) (rest : Forest ι α β) :
    (leaf i b rest).keys = i :: rest.keys := rfl

@[simp] theorem keys_node (i : ι) (a : α) (kids rest : Forest ι α β) :
    (node i a kids rest).keys = i :: (kids.keys ++ rest.keys) := rfl

@[simp] theorem shape_nil : (nil : Forest ι α β).shape = nil := rfl

@[simp] theorem shape_leaf (i : ι) (b : β) (rest : Forest ι α β) :
    (leaf i b rest).shape = leaf () b rest.shape := rfl

@[simp] theorem shape_node (i : ι) (a : α) (kids rest : Forest ι α β) :
    (node i a kids rest).shape = node () a kids.shape rest.shape := rfl

theorem keysWhere_subset (p : β → Bool) (f : Forest ι α β) {i : ι}
    (h : i ∈ f.keysWhere p) : i ∈ f.keys := by
  induction f with
  | nil => simp [keysWhere] at h
  | leaf j b rest ih =>
      rw [keysWhere] at h
      split at h
      · rcases List.mem_cons.mp h with h | h
        · simp [h]
        · simp [ih h]
      · simp [ih h]
  | node j a kids rest ihk ihr =>
      rw [keysWhere, List.mem_cons, List.mem_append] at h
      rcases h with h | h | h
      · simp [h]
      · simp [ihk h]
      · simp [ihr h]

theorem keysWhere_true (f : Forest ι α β) : f.keysWhere (fun _ => true) = f.keys := by
  induction f with
  | nil => rfl
  | leaf i b rest ih => simp [keysWhere, ih]
  | node i a kids rest ihk ihr => simp [keysWhere, ihk, ihr]

/-- `vis` holds of every node, and of exactly the leaves that pass the test `p`. -/
def Marked (vis : ι → Bool) (p : β → Bool) : Forest ι α β → Prop
  | .nil => True
  | .leaf i b rest => vis i = p b ∧ rest.Marked vis p
  | .node i _ kids rest => vis i = true ∧ kids.Marked vis p ∧ rest.Marked vis p

/-- With distinct keys, membership in `keysWhere p` marks the forest. -/
theorem marked_of_keysWhere {vis : ι → Bool} {p : β → Bool} {f : Forest ι α β}
    (hn : f.keys.Nodup) (h : ∀ i ∈ f.keys, (vis i = true ↔ i ∈ f.keysWhere p)) :
    f.Marked vis p := by
  induction f with
  | nil => trivial
  | leaf i b rest ih =>
      rw [keys_leaf, List.nodup_cons] at hn
      have hi : i ∉ rest.keysWhere p := fun hi => hn.1 (keysWhere_subset p rest hi)
      have hw : i ∈ (leaf i b rest : Forest ι α β).keysWhere p ↔ p b = true := by
        rw [keysWhere]
        cases p b <;> simp [hi]
      refine ⟨?_, ih hn.2 ?_⟩
      · rw [Bool.eq_iff_iff, h i (by simp)]
        exact hw
      · intro j hj
        have hji : j ≠ i := fun he => hn.1 (he ▸ hj)
        rw [h j (by simp [hj]), keysWhere]
        cases p b <;> simp [hji]
  | node i a kids rest ihk ihr =>
      rw [keys_node, List.nodup_cons, List.nodup_append] at hn
      obtain ⟨hi, hk, hr, hd⟩ := hn
      refine ⟨?_, ihk hk ?_, ihr hr ?_⟩
      · rw [h i (by simp), keysWhere]
        simp
      · intro j hj
        have hji : j ≠ i := fun he => hi (he ▸ List.mem_append_left _ hj)
        have hjr : j ∉ rest.keysWhere p :=
          fun he => hd j hj j (keysWhere_subset p rest he) rfl
        rw [h j (by simp [hj]), keysWhere]
        simp [hji, hjr]
      · intro j hj
        have hji : j ≠ i := fun he => hi (he ▸ List.mem_append_right _ hj)
        have hjk : j ∉ kids.keysWhere p :=
          fun he => hd j (keysWhere_subset p kids he) j hj rfl
        rw [h j (by simp [hj]), keysWhere]
        simp [hji, hjk]

/-- What a cursor points at. -/
inductive Item (ι α β : Type) where
  | leaf (label : β)
  | node (label : α) (kids : Forest ι α β)
deriving DecidableEq, Repr

/-- One item of a forest with the nodes that enclose it, nearest first. -/
structure Cursor (ι α β : Type) where
  key : ι
  path : List (ι × α)
  item : Item ι α β
deriving DecidableEq, Repr

/-- A cursor for every item, in document order, below the enclosing `path`. -/
def cursors (path : List (ι × α)) : Forest ι α β → List (Cursor ι α β)
  | .nil => []
  | .leaf i b rest => ⟨i, path, .leaf b⟩ :: rest.cursors path
  | .node i a kids rest =>
      ⟨i, path, .node a kids⟩ :: (kids.cursors ((i, a) :: path) ++ rest.cursors path)

/-- A cursor for every item of the row itself. -/
def row (path : List (ι × α)) : Forest ι α β → List (Cursor ι α β)
  | .nil => []
  | .leaf i b rest => ⟨i, path, .leaf b⟩ :: rest.row path
  | .node i a kids rest => ⟨i, path, .node a kids⟩ :: rest.row path

theorem cursors_keys (path : List (ι × α)) (f : Forest ι α β) :
    (f.cursors path).map Cursor.key = f.keys := by
  induction f generalizing path with
  | nil => rfl
  | leaf i b rest ih => simp [cursors, ih]
  | node i a kids rest ihk ihr => simp [cursors, ihk, ihr]

theorem row_sublist (path : List (ι × α)) (f : Forest ι α β) :
    (f.row path).Sublist (f.cursors path) := by
  induction f generalizing path with
  | nil => simp [row, cursors]
  | leaf i b rest ih => exact (ih path).cons_cons _
  | node i a kids rest ihk ihr =>
      exact ((ihr path).trans (List.sublist_append_right _ _)).cons_cons _

namespace Cursor

/-- The row below the cursor. -/
def kids (c : Cursor ι α β) : Forest ι α β :=
  match c.item with
  | .leaf _ => .nil
  | .node _ kids => kids

/-- The chain that encloses the cursor's children. -/
def kidsPath (c : Cursor ι α β) : List (ι × α) :=
  match c.item with
  | .leaf _ => c.path
  | .node a _ => (c.key, a) :: c.path

/-- Cursors for the children. -/
def children (c : Cursor ι α β) : List (Cursor ι α β) := c.kids.row c.kidsPath

/-- Cursors for everything strictly below. -/
def descendants (c : Cursor ι α β) : List (Cursor ι α β) := c.kids.cursors c.kidsPath

/-- The key of the cursor and of everything below it. -/
def subtreeKeys (c : Cursor ι α β) : List ι := c.key :: c.kids.keys

/-- The nodes among the cursor itself and its enclosing chain. -/
def selfPath (c : Cursor ι α β) : List (ι × α) :=
  match c.item with
  | .leaf _ => c.path
  | .node a _ => (c.key, a) :: c.path

/-- The cursor and what lies below it, as a row of one. -/
def toForest (c : Cursor ι α β) : Forest ι α β :=
  match c.item with
  | .leaf b => .leaf c.key b .nil
  | .node a kids => .node c.key a kids .nil

end Cursor

theorem mem_cursors_key {path : List (ι × α)} {f : Forest ι α β} {c : Cursor ι α β}
    (h : c ∈ f.cursors path) : c.key ∈ f.keys := by
  rw [← cursors_keys path f]
  exact List.mem_map_of_mem h

/-- A cursor's own subtree is part of the forest it was taken from. -/
theorem mem_cursors_descendants {path : List (ι × α)} {f : Forest ι α β} {c d : Cursor ι α β}
    (h : c ∈ f.cursors path) (hd : d ∈ c.descendants) : d ∈ f.cursors path := by
  induction f generalizing path with
  | nil => simp [cursors] at h
  | leaf i b rest ih =>
      rw [cursors, List.mem_cons] at h ⊢
      rcases h with h | h
      · subst h; simp [Cursor.descendants, Cursor.kids, cursors] at hd
      · exact Or.inr (ih h)
  | node i a kids rest ihk ihr =>
      rw [cursors, List.mem_cons, List.mem_append] at h ⊢
      rcases h with h | h | h
      · subst h; exact Or.inr (Or.inl hd)
      · exact Or.inr (Or.inl (ihk h))
      · exact Or.inr (Or.inr (ihr h))

theorem subtreeKeys_subset {path : List (ι × α)} {f : Forest ι α β} {c : Cursor ι α β}
    (h : c ∈ f.cursors path) {i : ι} (hi : i ∈ c.subtreeKeys) : i ∈ f.keys := by
  rcases List.mem_cons.mp hi with hi | hi
  · subst hi; exact mem_cursors_key h
  · rw [← cursors_keys c.kidsPath, List.mem_map] at hi
    obtain ⟨d, hd, rfl⟩ := hi
    exact mem_cursors_key (mem_cursors_descendants h hd)

/-- The keys of a subtree come in the order they have in the forest. -/
theorem subtreeKeys_sublist {path : List (ι × α)} {f : Forest ι α β} {c : Cursor ι α β}
    (h : c ∈ f.cursors path) : c.subtreeKeys.Sublist f.keys := by
  induction f generalizing path with
  | nil => simp [cursors] at h
  | leaf i b rest ih =>
      rw [cursors, List.mem_cons] at h
      rcases h with h | h
      · subst h
        exact (List.nil_sublist _).cons_cons _
      · exact (ih h).trans (List.sublist_cons_self _ _)
  | node i a kids rest ihk ihr =>
      rw [cursors, List.mem_cons, List.mem_append] at h
      rcases h with h | h | h
      · subst h
        exact (List.sublist_append_left _ _).cons_cons _
      · exact ((ihk h).trans (List.sublist_append_left _ _)).trans (List.sublist_cons_self _ _)
      · exact ((ihr h).trans (List.sublist_append_right _ _)).trans (List.sublist_cons_self _ _)

/-- With distinct keys a cursor of the row below a node is not that node, nor one after it. -/
theorem not_mem_subtreeKeys_of_kids {path : List (ι × α)} {i : ι} {a : α}
    {kids rest : Forest ι α β} (hn : (node i a kids rest).keys.Nodup) {c : Cursor ι α β}
    (h : c ∈ kids.cursors path) {j : ι} (hj : j = i ∨ j ∈ rest.keys) : j ∉ c.subtreeKeys := by
  intro hc
  have hk : j ∈ kids.keys := subtreeKeys_subset h hc
  rw [keys_node, List.nodup_cons, List.nodup_append] at hn
  rcases hj with hj | hj
  · subst hj
    exact hn.1 (List.mem_append_left _ hk)
  · exact hn.2.2.2 j hk j hj rfl

/-- With distinct keys a cursor of the rest of a row is not the first node, nor below it. -/
theorem not_mem_subtreeKeys_of_rest {path : List (ι × α)} {i : ι} {a : α}
    {kids rest : Forest ι α β} (hn : (node i a kids rest).keys.Nodup) {c : Cursor ι α β}
    (h : c ∈ rest.cursors path) {j : ι} (hj : j = i ∨ j ∈ kids.keys) : j ∉ c.subtreeKeys := by
  intro hc
  have hr : j ∈ rest.keys := subtreeKeys_subset h hc
  rw [keys_node, List.nodup_cons, List.nodup_append] at hn
  rcases hj with hj | hj
  · subst hj
    exact hn.1 (List.mem_append_right _ hr)
  · exact hn.2.2.2 j hj j hr rfl

/-- Distinct keys: a key names one cursor. -/
theorem cursor_eq_of_key {path : List (ι × α)} {f : Forest ι α β} (hn : f.keys.Nodup)
    {c d : Cursor ι α β} (hc : c ∈ f.cursors path) (hd : d ∈ f.cursors path)
    (hk : c.key = d.key) : c = d := by
  rw [← cursors_keys path f] at hn
  exact List.inj_on_of_nodup_map hn hc hd hk

/-! ## Enclosing chains -/

theorem row_path {path : List (ι × α)} {f : Forest ι α β} {c : Cursor ι α β}
    (h : c ∈ f.row path) : c.path = path := by
  induction f with
  | nil => simp [row] at h
  | leaf i b rest ih =>
      rcases List.mem_cons.mp h with h | h
      · subst h; rfl
      · exact ih h
  | node i a kids rest ihk ihr =>
      rcases List.mem_cons.mp h with h | h
      · subst h; rfl
      · exact ihr h

theorem suffix_path {path : List (ι × α)} {f : Forest ι α β} {c : Cursor ι α β}
    (h : c ∈ f.cursors path) : path <:+ c.path := by
  induction f generalizing path with
  | nil => simp [cursors] at h
  | leaf i b rest ih =>
      rcases List.mem_cons.mp h with h | h
      · subst h; exact List.suffix_rfl
      · exact ih h
  | node i a kids rest ihk ihr =>
      rw [cursors, List.mem_cons, List.mem_append] at h
      rcases h with h | h | h
      · subst h; exact List.suffix_rfl
      · exact (List.suffix_cons _ _).trans (ihk h)
      · exact ihr h

/-- What lies below a cursor has the cursor on its chain. -/
theorem mem_path_of_descendant {c d : Cursor ι α β} (hd : d ∈ c.descendants) :
    c.key ∈ d.path.map Prod.fst := by
  obtain ⟨key, path, item⟩ := c
  cases item with
  | leaf b => simp [Cursor.descendants, Cursor.kids, cursors] at hd
  | node a kids =>
      have hs : (key, a) :: path <:+ d.path := suffix_path hd
      exact List.mem_map_of_mem (hs.subset List.mem_cons_self)

/-- A node is never filtered out with the leaves. -/
theorem mem_keysWhere_of_node (p : β → Bool) {path : List (ι × α)} {f : Forest ι α β}
    {c : Cursor ι α β} (h : c ∈ f.cursors path) {a : α} {kids : Forest ι α β}
    (hi : c.item = .node a kids) : c.key ∈ f.keysWhere p := by
  induction f generalizing path with
  | nil => simp [cursors] at h
  | leaf j b rest ih =>
      rw [cursors, List.mem_cons] at h
      rcases h with rfl | h
      · simp at hi
      · have := ih h
        rw [keysWhere]
        split
        · exact List.mem_cons_of_mem _ this
        · exact this
  | node j a' kids' rest ihk ihr =>
      rw [cursors, List.mem_cons, List.mem_append] at h
      rw [keysWhere, List.mem_cons, List.mem_append]
      rcases h with rfl | h | h
      · exact Or.inl rfl
      · exact Or.inr (Or.inl (ihk h))
      · exact Or.inr (Or.inr (ihr h))

/-- What is not filtered out: the nodes, and the leaves that pass the test. -/
theorem mem_keysWhere_iff (p : β → Bool) {path : List (ι × α)} {f : Forest ι α β}
    (hn : f.keys.Nodup) {c : Cursor ι α β} (h : c ∈ f.cursors path) :
    c.key ∈ f.keysWhere p ↔ ∀ b, c.item = .leaf b → p b = true := by
  induction f generalizing path with
  | nil => cases h
  | leaf j b rest ih =>
      rw [keys_leaf, List.nodup_cons] at hn
      rw [cursors, List.mem_cons] at h
      rw [keysWhere]
      rcases h with rfl | h
      · -- the leaf itself does not come again behind it
        have hout : j ∉ rest.keysWhere p := fun hj => hn.1 (keysWhere_subset p rest hj)
        cases hb : p b <;> simp [hb, hout]
      · have hne : c.key ≠ j := by
          rintro rfl
          exact hn.1 (mem_cursors_key h)
        rw [← ih hn.2 h]
        split
        · rw [List.mem_cons, or_iff_right hne]
        · rfl
  | node j a kids rest ihk ihr =>
      rw [keys_node, List.nodup_cons, List.nodup_append] at hn
      obtain ⟨hj, hk, hr, hd⟩ := hn
      rw [cursors, List.mem_cons, List.mem_append] at h
      rw [keysWhere, List.mem_cons, List.mem_append]
      rcases h with rfl | h | h
      · simp
      · have hin := mem_cursors_key h
        have hne : c.key ≠ j := by
          rintro rfl
          exact hj (List.mem_append_left _ hin)
        -- a key of the content is not one of the rest
        have hout : c.key ∉ rest.keysWhere p := fun hc => hd _ hin _ (keysWhere_subset p rest hc) rfl
        rw [or_iff_right hne, or_iff_left hout]
        exact ihk hk h
      · have hin := mem_cursors_key h
        have hne : c.key ≠ j := by
          rintro rfl
          exact hj (List.mem_append_right _ hin)
        have hout : c.key ∉ kids.keysWhere p := fun hc => hd _ (keysWhere_subset p kids hc) _ hin rfl
        rw [or_iff_right hne, or_iff_right hout]
        exact ihr hr h

/-- Only nodes have something below them. -/
theorem Cursor.item_of_descendant {c d : Cursor ι α β} (h : d ∈ c.descendants) :
    ∃ a kids, c.item = .node a kids := by
  obtain ⟨key, path, item⟩ := c
  cases item with
  | leaf b => simp [Cursor.descendants, Cursor.kids, cursors] at h
  | node a kids => exact ⟨a, kids, rfl⟩

/-- A node on a cursor's chain is a node of the forest that has the cursor below it. -/
theorem descendant_of_mem_path {path : List (ι × α)} {f : Forest ι α β} {d : Cursor ι α β}
    (hd : d ∈ f.cursors path) {p : ι × α} (hp : p ∈ d.path) :
    p ∈ path ∨ ∃ c ∈ f.cursors path, c.key = p.1 ∧ d ∈ c.descendants := by
  induction f generalizing path with
  | nil => simp [cursors] at hd
  | leaf i b rest ih =>
      rcases List.mem_cons.mp hd with hd | hd
      · subst hd; exact Or.inl hp
      · rcases ih hd with h | ⟨c, hc, hk, hb⟩
        · exact Or.inl h
        · exact Or.inr ⟨c, List.mem_cons_of_mem _ hc, hk, hb⟩
  | node i a kids rest ihk ihr =>
      rw [cursors, List.mem_cons, List.mem_append] at hd
      simp only [cursors, List.mem_cons, List.mem_append]
      rcases hd with hd | hd | hd
      · subst hd; exact Or.inl hp
      · rcases ihk hd with h | ⟨c, hc, hk, hb⟩
        · rcases List.mem_cons.mp h with h | h
          · exact Or.inr ⟨⟨i, path, .node a kids⟩, Or.inl rfl, by rw [h], hd⟩
          · exact Or.inl h
        · exact Or.inr ⟨c, Or.inr (Or.inl hc), hk, hb⟩
      · rcases ihr hd with h | ⟨c, hc, hk, hb⟩
        · exact Or.inl h
        · exact Or.inr ⟨c, Or.inr (Or.inr hc), hk, hb⟩

/-- A chain that a cursor's chain ends in belongs to a node that has the cursor below it. -/
theorem exists_of_suffix {path : List (ι × α)} {f : Forest ι α β} {d : Cursor ι α β}
    (hd : d ∈ f.cursors path) {p : ι × α} {t : List (ι × α)} (hs : p :: t <:+ d.path) :
    p :: t <:+ path
      ∨ ∃ kids, (⟨p.1, t, .node p.2 kids⟩ : Cursor ι α β) ∈ f.cursors path
        ∧ d ∈ (⟨p.1, t, .node p.2 kids⟩ : Cursor ι α β).descendants := by
  induction f generalizing path with
  | nil => simp [cursors] at hd
  | leaf i b rest ih =>
      rcases List.mem_cons.mp hd with hd | hd
      · subst hd
        exact Or.inl hs
      · rcases ih hd with h | ⟨kids, hc, hb⟩
        · exact Or.inl h
        · exact Or.inr ⟨kids, List.mem_cons_of_mem _ hc, hb⟩
  | node i a kids rest ihk ihr =>
      rw [cursors, List.mem_cons, List.mem_append] at hd
      simp only [cursors, List.mem_cons, List.mem_append]
      rcases hd with hd | hd | hd
      · subst hd
        exact Or.inl hs
      · rcases ihk hd with h | ⟨kids', hc, hb⟩
        · rcases List.suffix_cons_iff.mp h with h | h
          · obtain ⟨rfl, rfl⟩ := List.cons.inj h
            exact Or.inr ⟨kids, Or.inl rfl, hd⟩
          · exact Or.inl h
        · exact Or.inr ⟨kids', Or.inr (Or.inl hc), hb⟩
      · rcases ihr hd with h | ⟨kids', hc, hb⟩
        · exact Or.inl h
        · exact Or.inr ⟨kids', Or.inr (Or.inr hc), hb⟩

/-- The row itself holds the cursors with nothing more on their chain. -/
theorem mem_row_iff {path : List (ι × α)} {f : Forest ι α β} {c : Cursor ι α β} :
    c ∈ f.row path ↔ c ∈ f.cursors path ∧ c.path = path := by
  refine ⟨fun h => ⟨(row_sublist path f).subset h, row_path h⟩, ?_⟩
  rintro ⟨h, hp⟩
  induction f with
  | nil => simp [cursors] at h
  | leaf i b rest ih =>
      rw [cursors, List.mem_cons] at h
      rw [row, List.mem_cons]
      exact h.imp_right ih
  | node i a kids rest ihk ihr =>
      rw [cursors, List.mem_cons, List.mem_append] at h
      rw [row, List.mem_cons]
      rcases h with h | h | h
      · exact Or.inl h
      · have hlen := (suffix_path h).length_le
        rw [hp, List.length_cons] at hlen
        omega
      · exact Or.inr (ihr h)

/-- **Two ways to be below.** A cursor of a forest has another on its chain exactly when it is
in the other's subtree. -/
theorem mem_subtreeKeys_iff {f : Forest ι α β} (hn : f.keys.Nodup) {c d : Cursor ι α β}
    (hc : c ∈ f.cursors []) (hd : d ∈ f.cursors []) :
    d.key ∈ c.subtreeKeys ↔ d.key = c.key ∨ c.key ∈ d.path.map Prod.fst := by
  rw [Cursor.subtreeKeys, List.mem_cons]
  refine or_congr Iff.rfl ⟨?_, ?_⟩
  · intro h
    rw [← cursors_keys c.kidsPath, List.mem_map] at h
    obtain ⟨d', hd', hk⟩ := h
    have := cursor_eq_of_key hn (mem_cursors_descendants hc hd') hd hk
    rw [← this]
    exact mem_path_of_descendant hd'
  · intro h
    obtain ⟨p, hp, hk⟩ := List.mem_map.mp h
    rcases descendant_of_mem_path hd hp with h | ⟨c', hc', hk', hb⟩
    · simp at h
    · have := cursor_eq_of_key hn hc' hc (hk'.trans hk)
      subst this
      rw [← cursors_keys c'.kidsPath]
      exact List.mem_map_of_mem hb

/-! ## Replacing what a node holds -/

section Replace

variable [DecidableEq ι]

/-- Give the node with key `k` another payload and another row below it. -/
def replaceNode (f : Forest ι α β) (k : ι) (a' : α) (kids' : Forest ι α β) : Forest ι α β :=
  match f with
  | .nil => .nil
  | .leaf i b rest => .leaf i b (rest.replaceNode k a' kids')
  | .node i a kids rest =>
      if i = k then .node i a' kids' rest
      else .node i a (kids.replaceNode k a' kids') (rest.replaceNode k a' kids')

theorem replaceNode_of_not_mem {k : ι} (a' : α) (kids' : Forest ι α β) {f : Forest ι α β}
    (h : k ∉ f.keys) : f.replaceNode k a' kids' = f := by
  induction f with
  | nil => rfl
  | leaf i b rest ih =>
      rw [replaceNode, ih (fun hk => h (by simp [hk]))]
  | node i a kids rest ihk ihr =>
      have hne : i ≠ k := fun he => h (by simp [he])
      rw [replaceNode, if_neg hne, ihk (fun hk => h (by simp [hk])),
        ihr (fun hk => h (by simp [hk]))]

/-- **What a replacement does to the keys.** Those of the old subtree give way to those of the
new one; all others stay where they are. -/
theorem keys_replaceNode {path : List (ι × α)} {f : Forest ι α β} (hn : f.keys.Nodup)
    {c : Cursor ι α β} (hc : c ∈ f.cursors path) {a : α} {kids : Forest ι α β}
    (hi : c.item = .node a kids) (a' : α) (kids' : Forest ι α β) :
    ∃ before after, f.keys = before ++ c.subtreeKeys ++ after
      ∧ (f.replaceNode c.key a' kids').keys = before ++ (c.key :: kids'.keys) ++ after := by
  induction f generalizing path with
  | nil => simp [cursors] at hc
  | leaf i b rest ih =>
      rw [cursors, List.mem_cons] at hc
      rw [keys_leaf, List.nodup_cons] at hn
      rcases hc with hc | hc
      · subst hc
        simp at hi
      · obtain ⟨before, after, h1, h2⟩ := ih hn.2 hc
        exact ⟨i :: before, after, by rw [keys_leaf, h1]; rfl, by rw [replaceNode, keys_leaf, h2]; rfl⟩
  | node i a₀ kids₀ rest ihk ihr =>
      have hn' := hn
      rw [keys_node, List.nodup_cons, List.nodup_append] at hn'
      obtain ⟨_, hk, hr, hd⟩ := hn'
      rw [cursors, List.mem_cons, List.mem_append] at hc
      rcases hc with hc | hc | hc
      · subst hc
        refine ⟨[], rest.keys, ?_, ?_⟩
        · simp [Cursor.subtreeKeys, Cursor.kids]
        · simp [replaceNode]
      · have hne : i ≠ c.key := by
          intro he
          exact not_mem_subtreeKeys_of_kids hn hc (Or.inl rfl) (he ▸ List.mem_cons_self)
        have hrest : c.key ∉ rest.keys := fun h => hd _ (mem_cursors_key hc) _ h rfl
        -- the keys before and after are those around it in the content, and the rest
        obtain ⟨before, after, h1, h2⟩ := ihk hk hc
        refine ⟨i :: before, after ++ rest.keys, ?_, ?_⟩
        · rw [keys_node, h1]
          simp
        · rw [replaceNode, if_neg hne, keys_node, h2, replaceNode_of_not_mem a' kids' hrest]
          simp
      · have hne : i ≠ c.key := by
          intro he
          exact not_mem_subtreeKeys_of_rest hn hc (Or.inl rfl) (he ▸ List.mem_cons_self)
        have hkids : c.key ∉ kids₀.keys := fun h => hd _ h _ (mem_cursors_key hc) rfl
        obtain ⟨before, after, h1, h2⟩ := ihr hr hc
        refine ⟨i :: kids₀.keys ++ before, after, ?_, ?_⟩
        · rw [keys_node, h1]
          simp
        · rw [replaceNode, if_neg hne, keys_node, h2, replaceNode_of_not_mem a' kids' hkids]
          simp

/-- The replaced node is where the old one was. -/
theorem mem_cursors_replaceNode {path : List (ι × α)} {f : Forest ι α β} (hn : f.keys.Nodup)
    {c : Cursor ι α β} (hc : c ∈ f.cursors path) {a : α} {kids : Forest ι α β}
    (hi : c.item = .node a kids) (a' : α) (kids' : Forest ι α β) :
    (⟨c.key, c.path, .node a' kids'⟩ : Cursor ι α β)
      ∈ (f.replaceNode c.key a' kids').cursors path := by
  induction f generalizing path with
  | nil => simp [cursors] at hc
  | leaf i b rest ih =>
      rw [cursors, List.mem_cons] at hc
      rw [keys_leaf, List.nodup_cons] at hn
      rcases hc with hc | hc
      · subst hc
        simp at hi
      · exact List.mem_cons_of_mem _ (ih hn.2 hc)
  | node i a₀ kids₀ rest ihk ihr =>
      have hn' := hn
      rw [keys_node, List.nodup_cons, List.nodup_append] at hn'
      obtain ⟨_, hk, hr, hd⟩ := hn'
      rw [cursors, List.mem_cons, List.mem_append] at hc
      rcases hc with hc | hc | hc
      · subst hc
        rw [replaceNode, if_pos rfl]
        exact List.mem_cons_self
      · have hne : i ≠ c.key := by
          intro he
          exact not_mem_subtreeKeys_of_kids hn hc (Or.inl rfl) (he ▸ List.mem_cons_self)
        rw [replaceNode, if_neg hne, cursors, List.mem_cons, List.mem_append]
        exact Or.inr (Or.inl (ihk hk hc))
      · have hne : i ≠ c.key := by
          intro he
          exact not_mem_subtreeKeys_of_rest hn hc (Or.inl rfl) (he ▸ List.mem_cons_self)
        rw [replaceNode, if_neg hne, cursors, List.mem_cons, List.mem_append]
        exact Or.inr (Or.inr (ihr hr hc))

end Replace

end Forest
