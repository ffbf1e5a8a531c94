import Bergshamra.Lib.Forest

/-!
# Forests with other keys and one node refilled

Reading a text again gives every item a new key, and writing one node of it anew
changes what that node holds. Readers that do not look at keys cannot tell the
first; for the second, the lemmas say which cursors stay and where the others
are. `Cursor.mapKeys` gives a cursor other keys, `Cursor.refill` follows
`replaceNode`.
-/

namespace Forest

variable {ι κ μ α β : Type}

/-! ## Other keys -/

/-- Relabel the keys. -/
def Item.mapKeys (g : ι → κ) : Item ι α β → Item κ α β
  | .leaf b => .leaf b
  | .node a kids => .node a (kids.mapKeys g)

/-- Relabel the keys. -/
def Cursor.mapKeys (g : ι → κ) (c : Cursor ι α β) : Cursor κ α β :=
  ⟨g c.key, c.path.map (Prod.map g id), c.item.mapKeys g⟩

theorem mapKeys_id (f : Forest ι α β) : f.mapKeys id = f := by
  induction f with
  | nil => rfl
  | leaf i p rest ih => rw [mapKeys, ih, id]
  | node i a kids rest ihk ihr => rw [mapKeys, ihk, ihr, id]

theorem mapKeys_mapKeys (g : ι → κ) (h : κ → μ) (f : Forest ι α β) :
    (f.mapKeys g).mapKeys h = f.mapKeys (h ∘ g) := by
  induction f with
  | nil => rfl
  | leaf i b rest ih => simp [mapKeys, ih]
  | node i a kids rest ihk ihr => simp [mapKeys, ihk, ihr]

/-- Forests of one shape differ in their keys only. -/
theorem mapKeys_eq_of_shape {f f' : Forest ι α β} (h : f.shape = f'.shape) (k : κ) :
    f.mapKeys (fun _ => k) = f'.mapKeys (fun _ => k) := by
  have hf : ∀ f : Forest ι α β, f.shape.mapKeys (fun _ => k) = f.mapKeys (fun _ => k) :=
    fun f => mapKeys_mapKeys _ _ f
  rw [← hf f, ← hf f', h]

theorem row_mapKeys (g : ι → κ) (path : List (ι × α)) (f : Forest ι α β) :
    (f.mapKeys g).row (path.map (Prod.map g id)) = (f.row path).map (Cursor.mapKeys g) := by
  induction f with
  | nil => rfl
  | leaf i b rest ih =>
      rw [mapKeys, row, row, List.map_cons, ih]
      rfl
  | node i a kids rest ihk ihr =>
      rw [mapKeys, row, row, List.map_cons, ihr]
      rfl

theorem cursors_mapKeys (g : ι → κ) (path : List (ι × α)) (f : Forest ι α β) :
    (f.mapKeys g).cursors (path.map (Prod.map g id)) = (f.cursors path).map (Cursor.mapKeys g) := by
  induction f generalizing path with
  | nil => rfl
  | leaf i b rest ih =>
      rw [mapKeys, cursors, cursors, List.map_cons, ih]
      rfl
  | node i a kids rest ihk ihr =>
      have hk := ihk ((i, a) :: path)
      rw [List.map_cons] at hk
      rw [mapKeys, cursors, cursors, List.map_cons, List.map_append, ← ihr path, ← hk]
      rfl

namespace Cursor

theorem kids_mapKeys (g : ι → κ) (c : Cursor ι α β) :
    (c.mapKeys g).kids = c.kids.mapKeys g := by
  obtain ⟨key, path, item⟩ := c
  cases item with
  | leaf b => rfl
  | node a kids => rfl

theorem kidsPath_mapKeys (g : ι → κ) (c : Cursor ι α β) :
    (c.mapKeys g).kidsPath = c.kidsPath.map (Prod.map g id) := by
  obtain ⟨key, path, item⟩ := c
  cases item with
  | leaf b => rfl
  | node a kids => rfl

theorem children_mapKeys (g : ι → κ) (c : Cursor ι α β) :
    (c.mapKeys g).children = c.children.map (Cursor.mapKeys g) := by
  rw [children, kids_mapKeys, kidsPath_mapKeys, row_mapKeys, children]

theorem descendants_mapKeys (g : ι → κ) (c : Cursor ι α β) :
    (c.mapKeys g).descendants = c.descendants.map (Cursor.mapKeys g) := by
  rw [descendants, kids_mapKeys, kidsPath_mapKeys, cursors_mapKeys, descendants]

end Cursor

/-! ## Payloads -/

/-- The payload of every node. -/
def labels : Forest ι α β → List α
  | .nil => []
  | .leaf _ _ rest => rest.labels
  | .node _ a kids rest => a :: (kids.labels ++ rest.labels)

theorem labels_mapKeys (g : ι → κ) (f : Forest ι α β) : (f.mapKeys g).labels = f.labels := by
  induction f with
  | nil => rfl
  | leaf i b rest ih => exact ih
  | node i a kids rest ihk ihr => rw [mapKeys, labels, labels, ihk, ihr]

theorem mem_labels_iff {path : List (ι × α)} {f : Forest ι α β} {a : α} :
    a ∈ f.labels ↔ ∃ c ∈ f.cursors path, ∃ kids, c.item = .node a kids := by
  induction f generalizing path with
  | nil => simp [labels, cursors]
  | leaf i b rest ih => simp [labels, cursors, @ih path]
  | node i a' kids rest ihk ihr =>
      rw [labels, cursors, List.mem_cons, List.mem_append, @ihk ((i, a') :: path),
        @ihr path]
      constructor
      · intro h
        rcases h with h | ⟨c, hc, hi⟩ | ⟨c, hc, hi⟩
        · exact ⟨_, List.mem_cons_self, kids, by rw [h]⟩
        · exact ⟨c, List.mem_cons_of_mem _ (List.mem_append_left _ hc), hi⟩
        · exact ⟨c, List.mem_cons_of_mem _ (List.mem_append_right _ hc), hi⟩
      · intro h
        obtain ⟨c, hc, k, hi⟩ := h
        rcases List.mem_cons.mp hc with hc | hc
        · subst hc
          simp only [Item.node.injEq] at hi
          exact Or.inl hi.1.symm
        · rcases List.mem_append.mp hc with hc | hc
          · exact Or.inr (Or.inl ⟨c, hc, k, hi⟩)
          · exact Or.inr (Or.inr ⟨c, hc, k, hi⟩)

/-- With distinct keys the subtrees of a row are apart. -/
theorem row_eq_of_mem_subtreeKeys {path : List (ι × α)} {f : Forest ι α β} (hn : f.keys.Nodup)
    {c d : Cursor ι α β} (hc : c ∈ f.row path) (hd : d ∈ f.row path) {k : ι}
    (hkc : k ∈ c.subtreeKeys) (hkd : k ∈ d.subtreeKeys) : c = d := by
  induction f with
  | nil => simp [row] at hc
  | leaf i b rest ih =>
      rw [keys_leaf, List.nodup_cons] at hn
      have hrest : ∀ {c : Cursor ι α β}, c ∈ rest.row path → k ∈ c.subtreeKeys → k ∈ rest.keys :=
        fun h hk => subtreeKeys_subset ((row_sublist path rest).subset h) hk
      have hone : k ∈ (⟨i, path, .leaf b⟩ : Cursor ι α β).subtreeKeys → k = i := by
        intro h
        simpa [Cursor.subtreeKeys, Cursor.kids] using h
      rcases List.mem_cons.mp hc with rfl | hc
      · rcases List.mem_cons.mp hd with rfl | hd
        · rfl
        · exact absurd (hone hkc ▸ hrest hd hkd) hn.1
      · rcases List.mem_cons.mp hd with rfl | hd
        · exact absurd (hone hkd ▸ hrest hc hkc) hn.1
        · exact ih hn.2 hc hd
  | node i a kids rest ihk ihr =>
      have hrest : ∀ {c : Cursor ι α β}, c ∈ rest.row path → k ∈ c.subtreeKeys →
          k ∈ (⟨i, path, .node a kids⟩ : Cursor ι α β).subtreeKeys → False := by
        intro c h hk hki
        have hmem := (row_sublist path rest).subset h
        rcases List.mem_cons.mp hki with hki | hki
        · exact not_mem_subtreeKeys_of_rest hn hmem (Or.inl hki) hk
        · exact not_mem_subtreeKeys_of_rest hn hmem (Or.inr hki) hk
      rcases List.mem_cons.mp hc with rfl | hc
      · rcases List.mem_cons.mp hd with rfl | hd
        · rfl
        · exact absurd hkc (fun h => hrest hd hkd h)
      · rcases List.mem_cons.mp hd with rfl | hd
        · exact absurd hkd (fun h => hrest hc hkc h)
        · rw [keys_node, List.nodup_cons, List.nodup_append] at hn
          exact ihr hn.2.2.1 hc hd

/-! ## One node refilled -/

section Refill

variable [DecidableEq ι] {k : ι} {a' : α} {kids' : Forest ι α β}

/-- A replacement brings in no payload but its own. -/
theorem mem_labels_replaceNode {f : Forest ι α β} {x : α}
    (h : x ∈ (f.replaceNode k a' kids').labels) :
    x ∈ f.labels ∨ x = a' ∨ x ∈ kids'.labels := by
  induction f with
  | nil => simp [replaceNode, labels] at h
  | leaf i b rest ih => exact ih h
  | node i a kids rest ihk ihr =>
      rw [labels, List.mem_cons, List.mem_append]
      rw [replaceNode] at h
      split at h
      · rw [labels, List.mem_cons, List.mem_append] at h
        rcases h with h | h | h
        · exact Or.inr (Or.inl h)
        · exact Or.inr (Or.inr h)
        · exact Or.inl (Or.inr (Or.inr h))
      · rw [labels, List.mem_cons, List.mem_append] at h
        rcases h with h | h | h
        · exact Or.inl (Or.inl h)
        · exact (ihk h).imp_left (fun h => Or.inr (Or.inl h))
        · exact (ihr h).imp_left (fun h => Or.inr (Or.inr h))

/-- What a replacement makes of a cursor that it does not remove. -/
def Cursor.refill (k : ι) (a' : α) (kids' : Forest ι α β) (c : Cursor ι α β) : Cursor ι α β :=
  match c.item with
  | .leaf _ => c
  | .node a kids =>
      if c.key = k then { c with item := .node a' kids' }
      else { c with item := .node a (kids.replaceNode k a' kids') }

theorem Cursor.refill_of_node {key : ι} {path : List (ι × α)} {a : α} {kids : Forest ι α β}
    (h : key ≠ k) : Cursor.refill k a' kids' ⟨key, path, .node a kids⟩
      = ⟨key, path, .node a (kids.replaceNode k a' kids')⟩ := if_neg h

/-- Nothing changes where the replaced node is not. -/
theorem Cursor.refill_of_not_mem {c : Cursor ι α β} (h : k ∉ c.subtreeKeys) :
    c.refill k a' kids' = c := by
  obtain ⟨key, path, item⟩ := c
  cases item with
  | leaf b => rfl
  | node a kids =>
      have hkey : key ≠ k := fun he => h (he ▸ List.mem_cons_self)
      have hkids : k ∉ kids.keys := fun hk => h (List.mem_cons_of_mem _ hk)
      rw [refill_of_node hkey, replaceNode_of_not_mem a' kids' hkids]

/-- The rows of the forest keep their places. -/
theorem row_replaceNode {path : List (ι × α)} {f : Forest ι α β} (hn : f.keys.Nodup) :
    (f.replaceNode k a' kids').row path = (f.row path).map (Cursor.refill k a' kids') := by
  induction f with
  | nil => rfl
  | leaf i b rest ih =>
      rw [replaceNode, row, row, List.map_cons, ih (List.nodup_cons.mp hn).2]
      rfl
  | node i a kids rest ihk ihr =>
      rw [keys_node, List.nodup_cons, List.nodup_append] at hn
      obtain ⟨hi, hk, hr, -⟩ := hn
      rw [row, List.map_cons]
      by_cases he : i = k
      · -- below the replaced node's own row nothing is left to replace
        have hrest : k ∉ rest.keys := fun h => hi (he ▸ List.mem_append_right _ h)
        have hrow := ihr hr
        rw [replaceNode_of_not_mem a' kids' hrest] at hrow
        rw [replaceNode, if_pos he, row, ← hrow]
        simp only [Cursor.refill, if_pos he]
      · rw [replaceNode, if_neg he, row, ihr hr, Cursor.refill_of_node he]

theorem Cursor.children_refill {c : Cursor ι α β} (hn : c.subtreeKeys.Nodup) (hk : c.key ≠ k) :
    (c.refill k a' kids').children = c.children.map (Cursor.refill k a' kids') := by
  obtain ⟨key, path, item⟩ := c
  cases item with
  | leaf b => rfl
  | node a kids =>
      rw [refill_of_node hk]
      exact row_replaceNode (List.nodup_cons.mp hn).2

/-- **The first cursor with a property, refilled.** The replaced node lies below it, so the search
does not see what is new. -/
theorem find?_cursors_replaceNode {path : List (ι × α)} {f : Forest ι α β} (hn : f.keys.Nodup)
    {p : Cursor ι α β → Bool} (hp : ∀ c : Cursor ι α β, c.key ≠ k → p (c.refill k a' kids') = p c)
    {c : Cursor ι α β} (hfind : (f.cursors path).find? p = some c) (hk : k ∈ c.kids.keys) :
    ((f.replaceNode k a' kids').cursors path).find? p = some (c.refill k a' kids') := by
  induction f generalizing path with
  | nil => simp [cursors] at hfind
  | leaf i b rest ih =>
      have hn' := (List.nodup_cons.mp hn).2
      rw [cursors] at hfind
      rw [replaceNode, cursors]
      by_cases hb : p ⟨i, path, .leaf b⟩ = true
      · rw [List.find?_cons_of_pos hb, Option.some.injEq] at hfind
        subst hfind
        simp [Cursor.kids] at hk
      · rw [List.find?_cons_of_neg hb] at hfind ⊢
        exact ih hn' hfind
  | node i a kids rest ihk ihr =>
      have hn' := hn
      rw [keys_node, List.nodup_cons, List.nodup_append] at hn'
      obtain ⟨hi, hnk, hnr, hd⟩ := hn'
      have hmem : c ∈ (node i a kids rest).cursors path := List.mem_of_find?_eq_some hfind
      -- the node comes after everything that encloses it
      have hik : i ≠ k := by
        intro he
        rw [cursors, List.mem_cons, List.mem_append] at hmem
        rcases hmem with h | h | h
        · rw [h] at hk
          exact hi (he ▸ List.mem_append_left _ hk)
        · exact not_mem_subtreeKeys_of_kids hn h (Or.inl he.symm) (List.mem_cons_of_mem _ hk)
        · exact not_mem_subtreeKeys_of_rest hn h (Or.inl he.symm) (List.mem_cons_of_mem _ hk)
      rw [cursors] at hfind
      rw [replaceNode, if_neg hik, cursors]
      have hhead := hp ⟨i, path, .node a kids⟩ hik
      rw [Cursor.refill_of_node hik] at hhead
      by_cases ha : p ⟨i, path, .node a kids⟩ = true
      · rw [List.find?_cons_of_pos ha, Option.some.injEq] at hfind
        subst hfind
        rw [List.find?_cons_of_pos (hhead.trans ha), Cursor.refill_of_node hik]
      · rw [List.find?_cons_of_neg ha, List.find?_append] at hfind
        rw [List.find?_cons_of_neg (by rw [hhead]; exact ha), List.find?_append]
        cases hfk : (kids.cursors ((i, a) :: path)).find? p with
        | some d =>
            rw [hfk, Option.some_or, Option.some.injEq] at hfind
            subst hfind
            rw [ihk hnk hfk, Option.some_or]
        | none =>
            rw [hfk, Option.none_or] at hfind
            have hrest : c ∈ rest.cursors path := List.mem_of_find?_eq_some hfind
            have hkk : k ∉ kids.keys := by
              intro h
              exact not_mem_subtreeKeys_of_rest hn hrest (Or.inr h) (List.mem_cons_of_mem _ hk)
            rw [replaceNode_of_not_mem a' kids' hkk, hfk, Option.none_or]
            exact ihr hnr hfind

/-- With new keys below a replaced node the keys stay apart. -/
theorem nodup_replaceNode {path : List (ι × α)} {f : Forest ι α β} (hn : f.keys.Nodup)
    {c : Cursor ι α β} (hc : c ∈ f.cursors path) {a : α} {kids : Forest ι α β}
    (hi : c.item = .node a kids) (hk : kids'.keys.Nodup) (hd : ∀ k ∈ kids'.keys, k ∉ f.keys) :
    (f.replaceNode c.key a' kids').keys.Nodup := by
  obtain ⟨before, after, h1, h2⟩ := keys_replaceNode hn hc hi a' kids'
  have hsub : (before ++ c.key :: after).Sublist f.keys := by
    rw [h1, List.append_assoc]
    refine (List.Sublist.refl before).append ?_
    rw [Cursor.subtreeKeys, List.cons_append]
    exact (List.sublist_append_right _ after).cons_cons c.key
  have hperm : (before ++ (c.key :: kids'.keys) ++ after).Perm
      ((before ++ c.key :: after) ++ kids'.keys) := by
    rw [List.append_assoc, List.append_assoc, List.cons_append, List.cons_append]
    exact (List.perm_append_comm.cons c.key).append_left before
  rw [h2, hperm.nodup_iff, List.nodup_append]
  refine ⟨hsub.nodup hn, hk, fun i hi j hj hij => ?_⟩
  exact hd j hj (hij ▸ hsub.subset hi)

/-- Replacing and relabelling, in either order. -/
theorem replaceNode_mapKeys [DecidableEq κ] {g : ι → κ} (hg : Function.Injective g)
    (f : Forest ι α β) : (f.mapKeys g).replaceNode (g k) a' (kids'.mapKeys g)
      = (f.replaceNode k a' kids').mapKeys g := by
  induction f with
  | nil => rfl
  | leaf i b rest ih => rw [mapKeys, replaceNode, ih, replaceNode, mapKeys]
  | node i a kids rest ihk ihr =>
      rw [mapKeys, replaceNode, replaceNode]
      by_cases hi : i = k
      · rw [if_pos hi, if_pos (congrArg g hi), mapKeys]
      · rw [if_neg hi, if_neg (fun he => hi (hg he)), mapKeys, ihk, ihr]

/-- The second forest is the first with other nodes in the places of the nodes `ks`. -/
def SameBut (ks : List ι) : Forest ι α β → Forest ι α β → Prop
  | .nil, .nil => True
  | .leaf i b rest, .leaf i' b' rest' => i = i' ∧ b = b' ∧ SameBut ks rest rest'
  | .node i a kids rest, .node i' a' kids' rest' =>
      i = i' ∧ (i ∈ ks ∨ a = a' ∧ SameBut ks kids kids') ∧ SameBut ks rest rest'
  | _, _ => False

omit [DecidableEq ι] in
theorem SameBut.refl (ks : List ι) (f : Forest ι α β) : SameBut ks f f := by
  induction f with
  | nil => trivial
  | leaf i b rest ih => exact ⟨rfl, rfl, ih⟩
  | node i a kids rest ihk ihr => exact ⟨rfl, Or.inr ⟨rfl, ihk⟩, ihr⟩

omit [DecidableEq ι] in
theorem SameBut.mono {ks ks' : List ι} {f g : Forest ι α β} (h : SameBut ks f g) (hks : ks ⊆ ks') :
    SameBut ks' f g := by
  induction f generalizing g with
  | nil => cases g with
    | nil => trivial
    | leaf i b rest => exact h.elim
    | node i a kids rest => exact h.elim
  | leaf i b rest ih => cases g with
    | nil => exact h.elim
    | leaf i' b' rest' => exact ⟨h.1, h.2.1, ih h.2.2⟩
    | node i' a kids rest' => exact h.elim
  | node i a kids rest ihk ihr => cases g with
    | nil => exact h.elim
    | leaf i' b' rest' => exact h.elim
    | node i' a' kids' rest' =>
        obtain ⟨hi, hnode, hrest⟩ := h
        refine ⟨hi, ?_, ihr hrest⟩
        rcases hnode with hin | ⟨ha, hkids⟩
        · exact Or.inl (hks hin)
        · exact Or.inr ⟨ha, ihk hkids⟩

/-- One more node replaced. -/
theorem SameBut.replaceNode {ks : List ι} {f g : Forest ι α β} (h : SameBut ks f g) :
    SameBut (k :: ks) f (g.replaceNode k a' kids') := by
  induction f generalizing g with
  | nil => cases g with
    | nil => trivial
    | leaf i b rest => exact h.elim
    | node i a kids rest => exact h.elim
  | leaf i b rest ih => cases g with
    | nil => exact h.elim
    | leaf i' b' rest' => exact ⟨h.1, h.2.1, ih h.2.2⟩
    | node i' a kids rest' => exact h.elim
  | node i a kids rest ihk ihr => cases g with
    | nil => exact h.elim
    | leaf i' b' rest' => exact h.elim
    | node i' a₁ kids₁ rest₁ =>
        obtain ⟨hi, hnode, hrest⟩ := h
        rw [Forest.replaceNode]
        split
        · rename_i hk
          exact ⟨hi, Or.inl (by simp [hi, hk]), hrest.mono (List.subset_cons_self k ks)⟩
        · refine ⟨hi, ?_, ihr hrest⟩
          rcases hnode with hin | ⟨ha, hkids⟩
          · exact Or.inl (List.mem_cons_of_mem k hin)
          · exact Or.inr ⟨ha, ihk hkids⟩

end Refill

end Forest
