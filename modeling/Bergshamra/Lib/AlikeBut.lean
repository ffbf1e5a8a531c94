import Bergshamra.Lib.Refill

/-!
# Forests that are alike but for some nodes

`AlikeBut R ks` relates two forests that have the same items in the same places,
except that the nodes `ks` may own other rows and, as far as `R` allows, have
another payload. The keys on the two sides do not count. `pairs` lists the items
that stand for each other, down to the nodes `ks` and not below them.

What a reader finds on one side it finds on the other, at the item that stands
for it: the children of a node, the first item with a property, and which items
lie below which.
-/

namespace Forest

variable {ι κ α β : Type}

/-- The second forest is the first with other rows, and payloads that `R` allows, at the nodes
`ks`. -/
inductive AlikeBut (R : α → α → Prop) (ks : List ι) : Forest ι α β → Forest κ α β → Prop
  | nil : AlikeBut R ks .nil .nil
  | leaf {i i' b rest rest'} (hrest : AlikeBut R ks rest rest') :
      AlikeBut R ks (.leaf i b rest) (.leaf i' b rest')
  | place {i i' a a' kids kids' rest rest'} (hi : i ∈ ks) (ha : R a a')
      (hrest : AlikeBut R ks rest rest') :
      AlikeBut R ks (.node i a kids rest) (.node i' a' kids' rest')
  | node {i i' a kids kids' rest rest'} (hi : i ∉ ks) (hkids : AlikeBut R ks kids kids')
      (hrest : AlikeBut R ks rest rest') :
      AlikeBut R ks (.node i a kids rest) (.node i' a kids' rest')

/-- What stands on the right of two lists that are related has its partner on the left. -/
theorem exists_left {γ δ : Type} {r : γ → δ → Prop} {xs : List γ} {ys : List δ}
    (h : List.Forall₂ r xs ys) {y : δ} (hy : y ∈ ys) : ∃ x ∈ xs, r x y := by
  induction h with
  | nil => cases hy
  | cons hxy _ ih =>
      rcases List.mem_cons.mp hy with rfl | hy
      · exact ⟨_, List.mem_cons_self, hxy⟩
      · obtain ⟨x, hx, hr⟩ := ih hy
        exact ⟨x, List.mem_cons_of_mem _ hx, hr⟩

/-- With distinct keys what follows a node is not in its subtree. -/
theorem head_apart {i : ι} {path : List (ι × α)} {a : α} {kids rest : Forest ι α β}
    (hn : (node i a kids rest).keys.Nodup) {j : ι} (hj : j ∈ rest.keys) :
    j ∉ (⟨i, path, .node a kids⟩ : Cursor ι α β).subtreeKeys := by
  rw [keys_node, List.nodup_cons, List.nodup_append] at hn
  intro h
  rcases List.mem_cons.mp h with rfl | h
  · exact hn.1 (List.mem_append_right _ hj)
  · exact hn.2.2.2 j h j hj rfl

/-- Of two subtrees that meet one lies in the other. -/
theorem nested_of_mem {path : List (ι × α)} {f : Forest ι α β} (hn : f.keys.Nodup)
    {c d : Cursor ι α β} (hc : c ∈ f.cursors path) (hd : d ∈ f.cursors path) {k : ι}
    (hkc : k ∈ c.subtreeKeys) (hkd : k ∈ d.subtreeKeys) :
    c.key ∈ d.subtreeKeys ∨ d.key ∈ c.subtreeKeys := by
  induction f generalizing path with
  | nil => cases hc
  | leaf i b rest ih =>
      have hone : ∀ {j : ι}, j ∈ (⟨i, path, .leaf b⟩ : Cursor ι α β).subtreeKeys → j = i := by
        intro j h
        simpa [Cursor.subtreeKeys, Cursor.kids] using h
      rcases List.mem_cons.mp hc with rfl | hc'
      · left
        rwa [← hone hkc]
      · rcases List.mem_cons.mp hd with rfl | hd'
        · right
          rwa [← hone hkd]
        · exact ih (List.nodup_cons.mp hn).2 hc' hd'
  | node i a kids rest ihk ihr =>
      have hn' := hn
      rw [keys_node, List.nodup_cons, List.nodup_append] at hn'
      obtain ⟨-, hnk, hnr, hdisj⟩ := hn'
      rw [cursors, List.mem_cons, List.mem_append] at hc hd
      -- in different parts of the row they have no key in common
      rcases hc with rfl | hc | hc
      · rcases hd with rfl | hd | hd
        · exact Or.inl List.mem_cons_self
        · exact Or.inr (List.mem_cons_of_mem _ (mem_cursors_key hd))
        · exact absurd hkc (head_apart hn (subtreeKeys_subset hd hkd))
      · rcases hd with rfl | hd | hd
        · exact Or.inl (List.mem_cons_of_mem _ (mem_cursors_key hc))
        · exact ihk hnk hc hd
        · exact absurd rfl (hdisj k (subtreeKeys_subset hc hkc) k (subtreeKeys_subset hd hkd))
      · rcases hd with rfl | hd | hd
        · exact absurd hkd (head_apart hn (subtreeKeys_subset hc hkc))
        · exact absurd rfl (hdisj k (subtreeKeys_subset hd hkd) k (subtreeKeys_subset hc hkc))
        · exact ihr hnr hc hd

/-- A subtree holds the subtrees of what is in it. -/
theorem subtreeKeys_trans {path : List (ι × α)} {f : Forest ι α β} (hn : f.keys.Nodup)
    {c d : Cursor ι α β} (hc : c ∈ f.cursors path) (hd : d ∈ f.cursors path)
    (h : d.key ∈ c.subtreeKeys) : d.subtreeKeys ⊆ c.subtreeKeys := by
  rcases List.mem_cons.mp h with hkey | hkey
  · rw [cursor_eq_of_key hn hd hc hkey]
    exact List.Subset.refl _
  · rw [← cursors_keys c.kidsPath, List.mem_map] at hkey
    obtain ⟨d', hd', hk⟩ := hkey
    have hsame := cursor_eq_of_key hn (mem_cursors_descendants hc hd') hd hk
    intro j hj
    rw [← hsame] at hj
    exact List.mem_cons_of_mem _ (subtreeKeys_subset hd' hj)

variable [DecidableEq ι]

/-- The items that stand for each other. -/
def pairs (ks : List ι) : List (ι × α) → List (κ × α) → Forest ι α β → Forest κ α β →
    List (Cursor ι α β × Cursor κ α β)
  | path, path', .leaf i b rest, .leaf i' b' rest' =>
      (⟨i, path, .leaf b⟩, ⟨i', path', .leaf b'⟩) :: pairs ks path path' rest rest'
  | path, path', .node i a kids rest, .node i' a' kids' rest' =>
      (⟨i, path, .node a kids⟩, ⟨i', path', .node a' kids'⟩)
        :: ((if i ∈ ks then [] else pairs ks ((i, a) :: path) ((i', a') :: path') kids kids')
          ++ pairs ks path path' rest rest')
  | _, _, _, _ => []

variable {R : α → α → Prop} {ks : List ι}

theorem AlikeBut.refl (hR : ∀ a, R a a) (ks : List ι) (f : Forest ι α β) : AlikeBut R ks f f := by
  induction f with
  | nil => exact .nil
  | leaf i b rest ih => exact .leaf ih
  | node i a kids rest ihk ihr =>
      by_cases hi : i ∈ ks
      · exact .place hi (hR a) ihr
      · exact .node hi ihk ihr

/-! ## Items that stand for each other -/

section Pairs

variable {path : List (ι × α)} {path' : List (κ × α)} {f : Forest ι α β} {f' : Forest κ α β}
  {c : Cursor ι α β} {c' : Cursor κ α β}

theorem pairs_leaf (i : ι) (i' : κ) (b b' : β) (rest : Forest ι α β) (rest' : Forest κ α β) :
    pairs ks path path' (.leaf i b rest) (.leaf i' b' rest')
      = (⟨i, path, .leaf b⟩, ⟨i', path', .leaf b'⟩) :: pairs ks path path' rest rest' := rfl

theorem pairs_node (i : ι) (i' : κ) (a a' : α) (kids rest : Forest ι α β)
    (kids' rest' : Forest κ α β) :
    pairs ks path path' (.node i a kids rest) (.node i' a' kids' rest')
      = (⟨i, path, .node a kids⟩, ⟨i', path', .node a' kids'⟩)
        :: ((if i ∈ ks then [] else pairs ks ((i, a) :: path) ((i', a') :: path') kids kids')
          ++ pairs ks path path' rest rest') := rfl

/-- Each item of a pair is an item of its forest. -/
theorem mem_of_pairs (h : (c, c') ∈ pairs ks path path' f f') :
    c ∈ f.cursors path ∧ c' ∈ f'.cursors path' := by
  induction f generalizing path path' f' with
  | nil => cases f' <;> cases h
  | leaf i b rest ih =>
      cases f' with
      | nil => cases h
      | node i' a' kids' rest' => cases h
      | leaf i' b' rest' =>
          rcases List.mem_cons.mp h with heq | h
          · cases heq
            exact ⟨List.mem_cons_self, List.mem_cons_self⟩
          · obtain ⟨hc, hc'⟩ := ih h
            exact ⟨List.mem_cons_of_mem _ hc, List.mem_cons_of_mem _ hc'⟩
  | node i a kids rest ihk ihr =>
      cases f' with
      | nil => cases h
      | leaf i' b' rest' => cases h
      | node i' a' kids' rest' =>
          rw [pairs_node, List.mem_cons, List.mem_append] at h
          rcases h with heq | h | h
          · cases heq
            exact ⟨List.mem_cons_self, List.mem_cons_self⟩
          · split at h
            · cases h
            · obtain ⟨hc, hc'⟩ := ihk h
              exact ⟨List.mem_cons_of_mem _ (List.mem_append_left _ hc),
                List.mem_cons_of_mem _ (List.mem_append_left _ hc')⟩
          · obtain ⟨hc, hc'⟩ := ihr h
            exact ⟨List.mem_cons_of_mem _ (List.mem_append_right _ hc),
              List.mem_cons_of_mem _ (List.mem_append_right _ hc')⟩

/-- Two items that stand for each other. -/
inductive ItemAlike (R : α → α → Prop) (ks : List ι) (i : ι) : Item ι α β → Item κ α β → Prop
  | leaf (b : β) : ItemAlike R ks i (.leaf b) (.leaf b)
  | place {a a' : α} {kids : Forest ι α β} {kids' : Forest κ α β} (hi : i ∈ ks) (ha : R a a') :
      ItemAlike R ks i (.node a kids) (.node a' kids')
  | node {a : α} {kids : Forest ι α β} {kids' : Forest κ α β} (hi : i ∉ ks)
      (hkids : AlikeBut R ks kids kids') : ItemAlike R ks i (.node a kids) (.node a kids')

theorem itemAlike_of_pairs (hf : AlikeBut R ks f f') (h : (c, c') ∈ pairs ks path path' f f') :
    ItemAlike R ks c.key c.item c'.item := by
  induction hf generalizing path path' with
  | nil => cases h
  | leaf _ ih =>
      rcases List.mem_cons.mp h with heq | h
      · cases heq
        exact .leaf _
      · exact ih h
  | place hi ha _ ih =>
      rw [pairs_node, if_pos hi, List.nil_append, List.mem_cons] at h
      rcases h with heq | h
      · cases heq
        exact .place hi ha
      · exact ih h
  | node hi hkids _ ihk ihr =>
      rw [pairs_node, if_neg hi, List.mem_cons, List.mem_append] at h
      rcases h with heq | h | h
      · cases heq
        exact .node hi hkids
      · exact ihk h
      · exact ihr h

/-- What stands for each other below a node stands for each other in the forest. -/
theorem pairs_below (h : (c, c') ∈ pairs ks path path' f f') (hi : c.key ∉ ks)
    {d : Cursor ι α β} {d' : Cursor κ α β}
    (hd : (d, d') ∈ pairs ks c.kidsPath c'.kidsPath c.kids c'.kids) :
    (d, d') ∈ pairs ks path path' f f' := by
  induction f generalizing path path' f' with
  | nil => cases f' <;> cases h
  | leaf i b rest ih =>
      cases f' with
      | nil => cases h
      | node i' a' kids' rest' => cases h
      | leaf i' b' rest' =>
          rcases List.mem_cons.mp h with heq | h
          · cases heq
            cases hd
          · exact List.mem_cons_of_mem _ (ih h)
  | node i a kids rest ihk ihr =>
      cases f' with
      | nil => cases h
      | leaf i' b' rest' => cases h
      | node i' a' kids' rest' =>
          rw [pairs_node, List.mem_cons, List.mem_append] at h ⊢
          -- what is below a node is paired up unless the node is one of `ks`
          rcases h with heq | h | h
          · cases heq
            right
            left
            rw [if_neg hi]
            exact hd
          · right
            left
            split at h
            · cases h
            · rename_i hik
              rw [if_neg hik]
              exact ihk h
          · exact Or.inr (Or.inr (ihr h))

/-- The rows themselves stand for each other, item by item. -/
theorem row_pairs (hf : AlikeBut R ks f f') :
    List.Forall₂ (fun d d' => (d, d') ∈ pairs ks path path' f f') (f.row path) (f'.row path') := by
  induction hf with
  | nil => exact .nil
  | leaf _ ih =>
      exact .cons List.mem_cons_self (ih.imp fun _ _ hd => List.mem_cons_of_mem _ hd)
  | place _ _ _ ih =>
      refine .cons List.mem_cons_self (ih.imp fun _ _ hd => ?_)
      exact List.mem_cons_of_mem _ (List.mem_append_right _ hd)
  | node _ _ _ _ ih =>
      refine .cons List.mem_cons_self (ih.imp fun _ _ hd => ?_)
      exact List.mem_cons_of_mem _ (List.mem_append_right _ hd)

/-- **The children of a node.** -/
theorem children_pairs (hf : AlikeBut R ks f f') (h : (c, c') ∈ pairs ks path path' f f')
    (hi : c.key ∉ ks) :
    List.Forall₂ (fun d d' => (d, d') ∈ pairs ks path path' f f') c.children c'.children := by
  have hitem := itemAlike_of_pairs hf h
  have hkids : AlikeBut R ks c.kids c'.kids := by
    obtain ⟨key, p, item⟩ := c
    obtain ⟨key', p', item'⟩ := c'
    cases hitem with
    | leaf b => exact .nil
    | place hk => exact absurd hk hi
    | node _ hkids => exact hkids
  exact (row_pairs hkids).imp fun d d' hd => pairs_below h hi hd

/-- Where none of the nodes `ks` is, all items stand for each other. -/
theorem cursors_pairs (hf : AlikeBut R ks f f') (hks : ∀ i ∈ f.keys, i ∉ ks) :
    List.Forall₂ (fun d d' => (d, d') ∈ pairs ks path path' f f') (f.cursors path)
      (f'.cursors path') := by
  induction hf generalizing path path' with
  | nil => exact .nil
  | leaf _ ih =>
      refine .cons List.mem_cons_self ((ih fun j hj => hks j (by simp [hj])).imp fun _ _ hd => ?_)
      exact List.mem_cons_of_mem _ hd
  | place hi => exact absurd hi (hks _ (by simp))
  | node hi _ _ ihk ihr =>
      have hk := fun j hj => hks j (List.mem_cons_of_mem _ (List.mem_append_left _ hj))
      have hr := fun j hj => hks j (List.mem_cons_of_mem _ (List.mem_append_right _ hj))
      refine .cons List.mem_cons_self (List.rel_append ((ihk hk).imp fun _ _ hd => ?_)
        ((ihr hr).imp fun _ _ hd => ?_))
      · rw [pairs_node, if_neg hi]
        exact List.mem_cons_of_mem _ (List.mem_append_left _ hd)
      · exact List.mem_cons_of_mem _ (List.mem_append_right _ hd)

/-- An item that is below none of the nodes `ks` has one that stands for it. -/
theorem exists_pair (hf : AlikeBut R ks f f') (hc : c ∈ f.cursors path)
    (hout : ∀ p ∈ c.path, p.1 ∉ ks) : ∃ c', (c, c') ∈ pairs ks path path' f f' := by
  induction hf generalizing path path' with
  | nil => cases hc
  | leaf _ ih =>
      rcases List.mem_cons.mp hc with rfl | hc
      · exact ⟨_, List.mem_cons_self⟩
      · obtain ⟨c', hc'⟩ := @ih path path' hc
        exact ⟨c', List.mem_cons_of_mem _ hc'⟩
  | place hi _ _ ih =>
      rw [cursors, List.mem_cons, List.mem_append] at hc
      rcases hc with rfl | hc | hc
      · exact ⟨_, List.mem_cons_self⟩
      · exact absurd hi (hout _ ((suffix_path hc).subset List.mem_cons_self))
      · obtain ⟨c', hc'⟩ := @ih path path' hc
        exact ⟨c', List.mem_cons_of_mem _ (List.mem_append_right _ hc')⟩
  | @node i i' a kids kids' rest rest' hi _ _ ihk ihr =>
      rw [cursors, List.mem_cons, List.mem_append] at hc
      rcases hc with rfl | hc | hc
      · exact ⟨_, List.mem_cons_self⟩
      · obtain ⟨c', hc'⟩ := @ihk ((i, a) :: path) ((i', a) :: path') hc
        refine ⟨c', ?_⟩
        rw [pairs_node, if_neg hi]
        exact List.mem_cons_of_mem _ (List.mem_append_left _ hc')
      · obtain ⟨c', hc'⟩ := @ihr path path' hc
        exact ⟨c', List.mem_cons_of_mem _ (List.mem_append_right _ hc')⟩

/-- **The first item with a property** is found again, if the nodes `ks` lie below it. -/
theorem find?_pairs (hf : AlikeBut R ks f f') (hn : f.keys.Nodup) {p : Cursor ι α β → Bool}
    {p' : Cursor κ α β → Bool}
    (hp : ∀ d d', (d, d') ∈ pairs ks path path' f f' → p d = p' d')
    (hfind : (f.cursors path).find? p = some c) (hks : ∀ k ∈ ks, k ∈ f.keys → k ∈ c.kids.keys) :
    ∃ c', (f'.cursors path').find? p' = some c' ∧ (c, c') ∈ pairs ks path path' f f' := by
  induction hf generalizing path path' with
  | nil => cases hfind
  | @leaf i i' b rest rest' _ ih =>
      have hhead := hp _ _ List.mem_cons_self
      rw [cursors] at hfind ⊢
      by_cases hb : p ⟨i, path, .leaf b⟩ = true
      · rw [List.find?_cons_of_pos hb, Option.some.injEq] at hfind
        subst hfind
        exact ⟨_, List.find?_cons_of_pos (hhead ▸ hb), List.mem_cons_self⟩
      · rw [List.find?_cons_of_neg hb] at hfind
        obtain ⟨c', hc', hpair⟩ := ih (List.nodup_cons.mp hn).2
          (fun d d' hd => hp d d' (List.mem_cons_of_mem _ hd)) hfind
          (fun k hk hin => hks k hk (List.mem_cons_of_mem _ hin))
        refine ⟨c', ?_, List.mem_cons_of_mem _ hpair⟩
        rw [List.find?_cons_of_neg (hhead ▸ hb)]
        exact hc'
  | @place i i' a a' kids kids' rest rest' hi _ _ ih =>
      -- the node is before what is found, or it is what is found; it is not below it
      exfalso
      have hmem := List.mem_of_find?_eq_some hfind
      have hbelow := hks i hi (by simp)
      rw [cursors, List.mem_cons, List.mem_append] at hmem
      rcases hmem with rfl | hmem | hmem
      · exact (List.nodup_cons.mp hn).1 (List.mem_append_left _ hbelow)
      · exact not_mem_subtreeKeys_of_kids hn hmem (Or.inl rfl) (List.mem_cons_of_mem _ hbelow)
      · exact not_mem_subtreeKeys_of_rest hn hmem (Or.inl rfl) (List.mem_cons_of_mem _ hbelow)
  | @node i i' a kids kids' rest rest' hi hkids _ ihk ihr =>
      have hhead := hp _ _ List.mem_cons_self
      have hn' := hn
      rw [keys_node, List.nodup_cons, List.nodup_append] at hn'
      obtain ⟨-, hnk, hnr, -⟩ := hn'
      have hpk : ∀ d d', (d, d') ∈ pairs ks ((i, a) :: path) ((i', a) :: path') kids kids' →
          p d = p' d' := by
        intro d d' hd
        refine hp d d' ?_
        rw [pairs_node, if_neg hi]
        exact List.mem_cons_of_mem _ (List.mem_append_left _ hd)
      rw [cursors] at hfind ⊢
      by_cases ha : p ⟨i, path, .node a kids⟩ = true
      · rw [List.find?_cons_of_pos ha, Option.some.injEq] at hfind
        subst hfind
        exact ⟨_, List.find?_cons_of_pos (hhead ▸ ha), List.mem_cons_self⟩
      · rw [List.find?_cons_of_neg ha, List.find?_append] at hfind
        rw [List.find?_cons_of_neg (hhead ▸ ha), List.find?_append]
        cases hfk : (kids.cursors ((i, a) :: path)).find? p with
        | some d =>
            rw [hfk, Option.some_or, Option.some.injEq] at hfind
            subst hfind
            obtain ⟨c', hc', hpair⟩ := ihk hnk hpk hfk
              (fun k hk hin => hks k hk (by simp [hin]))
            refine ⟨c', by rw [hc', Option.some_or], ?_⟩
            rw [pairs_node, if_neg hi]
            exact List.mem_cons_of_mem _ (List.mem_append_left _ hpair)
        | none =>
            rw [hfk, Option.none_or] at hfind
            have hrest : c ∈ rest.cursors path := List.mem_of_find?_eq_some hfind
            -- none of the nodes is among what is passed over
            have hfree : ∀ j ∈ kids.keys, j ∉ ks := by
              intro j hj hjk
              have hbelow := hks j hjk (by simp [hj])
              exact not_mem_subtreeKeys_of_rest hn hrest (Or.inr hj)
                (List.mem_cons_of_mem _ hbelow)
            have hnone : (kids'.cursors ((i', a) :: path')).find? p' = none := by
              rw [List.find?_eq_none] at hfk ⊢
              intro d' hd'
              obtain ⟨d, hd, hpair⟩ := exists_left (cursors_pairs hkids hfree) hd'
              rw [← hpk d d' hpair]
              exact hfk d hd
            obtain ⟨c', hc', hpair⟩ := ihr hnr
              (fun d d' hd => hp d d' (List.mem_cons_of_mem _ (List.mem_append_right _ hd))) hfind
              (fun k hk hin => hks k hk (by simp [hin]))
            refine ⟨c', by rw [hnone, Option.none_or, hc'], ?_⟩
            exact List.mem_cons_of_mem _ (List.mem_append_right _ hpair)

/-- **What lies below what.** -/
theorem mem_subtreeKeys_pairs (hf : AlikeBut R ks f f') (hn : f.keys.Nodup) (hn' : f'.keys.Nodup)
    {d : Cursor ι α β} {d' : Cursor κ α β} (hc : (c, c') ∈ pairs ks path path' f f')
    (hd : (d, d') ∈ pairs ks path path' f f') :
    d.key ∈ c.subtreeKeys ↔ d'.key ∈ c'.subtreeKeys := by
  induction hf generalizing path path' with
  | nil => cases hc
  | @leaf i i' b rest rest' _ ih =>
      rw [pairs_leaf, List.mem_cons] at hc hd
      rw [keys_leaf, List.nodup_cons] at hn hn'
      rcases hc with hc | hc
      · cases hc
        rcases hd with hd | hd
        · cases hd
          simp [Cursor.subtreeKeys]
        · obtain ⟨hin, hin'⟩ := mem_of_pairs hd
          have h1 := mem_cursors_key hin
          have h2 := mem_cursors_key hin'
          simp only [Cursor.subtreeKeys, Cursor.kids, keys_nil, List.mem_singleton]
          constructor
          · intro he
            exact absurd (he ▸ h1) hn.1
          · intro he
            exact absurd (he ▸ h2) hn'.1
      · rcases hd with hd | hd
        · cases hd
          obtain ⟨hin, hin'⟩ := mem_of_pairs hc
          constructor
          · intro h
            exact absurd (subtreeKeys_subset hin h) hn.1
          · intro h
            exact absurd (subtreeKeys_subset hin' h) hn'.1
        · exact ih hn.2 hn'.2 hc hd
  | @place i i' a a' kids kids' rest rest' hi _ _ ih =>
      -- below a place there are no pairs
      rw [pairs_node, if_pos hi, List.nil_append, List.mem_cons] at hc hd
      have hr := (List.nodup_append.mp (List.nodup_cons.mp hn).2).2.1
      have hr' := (List.nodup_append.mp (List.nodup_cons.mp hn').2).2.1
      rcases hc with hc | hc
      · cases hc
        rcases hd with hd | hd
        · cases hd
          simp [Cursor.subtreeKeys]
        · obtain ⟨hin, hin'⟩ := mem_of_pairs hd
          exact iff_of_false (head_apart hn (mem_cursors_key hin))
            (head_apart hn' (mem_cursors_key hin'))
      · rcases hd with hd | hd
        · cases hd
          obtain ⟨hin, hin'⟩ := mem_of_pairs hc
          exact iff_of_false (not_mem_subtreeKeys_of_rest hn hin (Or.inl rfl))
            (not_mem_subtreeKeys_of_rest hn' hin' (Or.inl rfl))
        · exact ih hr hr' hc hd
  | @node i i' a kids kids' rest rest' hi _ _ ihk ihr =>
      rw [pairs_node, if_neg hi, List.mem_cons, List.mem_append] at hc hd
      obtain ⟨hk, hr, -⟩ := List.nodup_append.mp (List.nodup_cons.mp hn).2
      obtain ⟨hk', hr', -⟩ := List.nodup_append.mp (List.nodup_cons.mp hn').2
      -- both pairs are in the same one of three parts, or neither node is below the other
      rcases hc with hc | hc | hc
      · cases hc
        rcases hd with hd | hd | hd
        · cases hd
          simp [Cursor.subtreeKeys]
        · obtain ⟨hin, hin'⟩ := mem_of_pairs hd
          exact iff_of_true (List.mem_cons_of_mem _ (mem_cursors_key hin))
            (List.mem_cons_of_mem _ (mem_cursors_key hin'))
        · obtain ⟨hin, hin'⟩ := mem_of_pairs hd
          exact iff_of_false (head_apart hn (mem_cursors_key hin))
            (head_apart hn' (mem_cursors_key hin'))
      · obtain ⟨hcin, hcin'⟩ := mem_of_pairs hc
        rcases hd with hd | hd | hd
        · cases hd
          exact iff_of_false (not_mem_subtreeKeys_of_kids hn hcin (Or.inl rfl))
            (not_mem_subtreeKeys_of_kids hn' hcin' (Or.inl rfl))
        · exact ihk hk hk' hc hd
        · obtain ⟨hin, hin'⟩ := mem_of_pairs hd
          exact iff_of_false (not_mem_subtreeKeys_of_kids hn hcin (Or.inr (mem_cursors_key hin)))
            (not_mem_subtreeKeys_of_kids hn' hcin' (Or.inr (mem_cursors_key hin')))
      · obtain ⟨hcin, hcin'⟩ := mem_of_pairs hc
        rcases hd with hd | hd | hd
        · cases hd
          exact iff_of_false (not_mem_subtreeKeys_of_rest hn hcin (Or.inl rfl))
            (not_mem_subtreeKeys_of_rest hn' hcin' (Or.inl rfl))
        · obtain ⟨hin, hin'⟩ := mem_of_pairs hd
          exact iff_of_false (not_mem_subtreeKeys_of_rest hn hcin (Or.inr (mem_cursors_key hin)))
            (not_mem_subtreeKeys_of_rest hn' hcin' (Or.inr (mem_cursors_key hin')))
        · exact ihr hr hr' hc hd

/-- What stands for something is not below one of the nodes `ks`. -/
theorem eq_of_pairs_below (hn : f.keys.Nodup) {d : Cursor ι α β} {d' : Cursor κ α β}
    (hc : (c, c') ∈ pairs ks path path' f f') (hd : (d, d') ∈ pairs ks path path' f f')
    (hk : c.key ∈ ks) (h : d.key ∈ c.subtreeKeys) : d.key = c.key := by
  induction f generalizing path path' f' with
  | nil => cases f' <;> cases hc
  | leaf i b rest ih =>
      cases f' with
      | nil => cases hc
      | node i' a' kids' rest' => cases hc
      | leaf i' b' rest' =>
          rw [pairs_leaf, List.mem_cons] at hc hd
          rw [keys_leaf, List.nodup_cons] at hn
          rcases hc with hc | hc
          · cases hc
            simpa [Cursor.subtreeKeys, Cursor.kids] using h
          · rcases hd with hd | hd
            · cases hd
              exact absurd (subtreeKeys_subset (mem_of_pairs hc).1 h) hn.1
            · exact ih hn.2 hc hd
  | node i a kids rest ihk ihr =>
      cases f' with
      | nil => cases hc
      | leaf i' b' rest' => cases hc
      | node i' a' kids' rest' =>
          rw [pairs_node, List.mem_cons, List.mem_append] at hc hd
          obtain ⟨hnk, hnr, -⟩ := List.nodup_append.mp (List.nodup_cons.mp hn).2
          rcases hc with hc | hc | hc
          · cases hc
            -- the place itself: its content has no pairs
            rw [if_pos hk] at hd
            rcases hd with hd | hd | hd
            · cases hd
              rfl
            · cases hd
            · exact absurd h (head_apart hn (mem_cursors_key (mem_of_pairs hd).1))
          · split at hc
            · cases hc
            · rename_i hi
              have hin := (mem_of_pairs hc).1
              rw [if_neg hi] at hd
              rcases hd with hd | hd | hd
              · cases hd
                exact absurd h (not_mem_subtreeKeys_of_kids hn hin (Or.inl rfl))
              · exact ihk hnk hc hd
              · exact absurd h
                  (not_mem_subtreeKeys_of_kids hn hin (Or.inr (mem_cursors_key (mem_of_pairs hd).1)))
          · have hin := (mem_of_pairs hc).1
            rcases hd with hd | hd | hd
            · cases hd
              exact absurd h (not_mem_subtreeKeys_of_rest hn hin (Or.inl rfl))
            · split at hd
              · cases hd
              · exact absurd h
                  (not_mem_subtreeKeys_of_rest hn hin (Or.inr (mem_cursors_key (mem_of_pairs hd).1)))
            · exact ihr hnr hc hd

end Pairs

/-! ## Forests that are alike -/

omit [DecidableEq ι] in
/-- Other keys on both sides. -/
theorem AlikeBut.mapKeys {ι' κ' : Type} {f : Forest ι α β} {f' : Forest κ α β} (g : ι → ι')
    (g' : κ → κ') (hg : ∀ i ∈ f.keys, g i ∈ ks.map g → i ∈ ks) (h : AlikeBut R ks f f') :
    AlikeBut R (ks.map g) (f.mapKeys g) (f'.mapKeys g') := by
  induction h with
  | nil => exact .nil
  | leaf _ ih => exact .leaf (ih fun j hj => hg j (List.mem_cons_of_mem _ hj))
  | place hi ha _ ih =>
      refine .place (List.mem_map_of_mem hi) ha (ih fun j hj => hg j ?_)
      exact List.mem_cons_of_mem _ (List.mem_append_right _ hj)
  | node hi _ _ ihk ihr =>
      refine .node (fun h => hi (hg _ List.mem_cons_self h)) (ihk fun j hj => hg j ?_)
        (ihr fun j hj => hg j ?_)
      · exact List.mem_cons_of_mem _ (List.mem_append_left _ hj)
      · exact List.mem_cons_of_mem _ (List.mem_append_right _ hj)

/-- One node refilled. -/
theorem alikeBut_replaceNode (hrefl : ∀ a, R a a) {path : List (ι × α)} {f : Forest ι α β}
    {k : ι} {a' : α} {kids' : Forest ι α β}
    (hR : ∀ c ∈ f.cursors path, c.key = k → ∀ a kids, c.item = .node a kids → R a a') :
    AlikeBut R [k] f (f.replaceNode k a' kids') := by
  induction f generalizing path with
  | nil => exact .nil
  | leaf i b rest ih => exact .leaf (ih fun c hc => hR c (List.mem_cons_of_mem _ hc))
  | node i a kids rest ihk ihr =>
      have hk := fun c hc => hR c (List.mem_cons_of_mem _ (List.mem_append_left _ hc))
      have hr := fun c hc => hR c (List.mem_cons_of_mem _ (List.mem_append_right _ hc))
      rw [replaceNode]
      by_cases hi : i = k
      · rw [if_pos hi]
        exact .place (by simp [hi]) (hR _ List.mem_cons_self hi a kids rfl) (.refl hrefl [k] rest)
      · rw [if_neg hi]
        exact .node (by simpa using hi) (ihk hk) (ihr hr)

omit [DecidableEq ι] in
theorem keys_mapKeys (g : ι → κ) (f : Forest ι α β) : (f.mapKeys g).keys = f.keys.map g := by
  induction f with
  | nil => rfl
  | leaf i b rest ih => rw [mapKeys, keys_leaf, keys_leaf, List.map_cons, ih]
  | node i a kids rest ihk ihr =>
      rw [mapKeys, keys_node, keys_node, List.map_cons, List.map_append, ihk, ihr]

/-- What stands for the node that is refilled. -/
theorem refilled_item {ι' κ' : Type} [DecidableEq ι'] {g : ι → ι'} {g' : ι → κ'}
    (hg : Function.Injective g) {f : Forest ι α β} (hn : f.keys.Nodup) {k : ι} {a' : α}
    {kids' : Forest ι α β} {path : List (ι' × α)} {path' : List (κ' × α)} {c : Cursor ι' α β}
    {c' : Cursor κ' α β}
    (h : (c, c') ∈ pairs [g k] path path' (f.mapKeys g) ((f.replaceNode k a' kids').mapKeys g'))
    (hk : c.key = g k) (hnode : ∀ b, c.item ≠ .leaf b) :
    c'.item = .node a' (kids'.mapKeys g') := by
  have hkeys : ∀ {r : Forest ι α β} {p : List (ι' × α)}, c ∈ (r.mapKeys g).cursors p →
      k ∈ r.keys := by
    intro r p hc
    have hin := mem_cursors_key hc
    rw [keys_mapKeys, hk, List.mem_map] at hin
    obtain ⟨i, hi, hgi⟩ := hin
    exact hg hgi ▸ hi
  induction f generalizing path path' with
  | nil => cases h
  | leaf i b rest ih =>
      rw [replaceNode, mapKeys, mapKeys, pairs_leaf, List.mem_cons] at h
      rcases h with h | h
      · cases h
        exact absurd rfl (hnode b)
      · exact ih (List.nodup_cons.mp hn).2 h
  | node i a kids rest ihk ihr =>
      rw [keys_node, List.nodup_cons, List.nodup_append] at hn
      obtain ⟨hi, hnk, hnr, -⟩ := hn
      rw [replaceNode] at h
      by_cases hik : i = k
      · rw [if_pos hik, mapKeys, mapKeys, pairs_node, if_pos (by simp [hik]), List.nil_append,
          List.mem_cons] at h
        rcases h with h | h
        · cases h
          rfl
        · -- the key does not come back in the rest
          have hin := hkeys (mem_of_pairs h).1
          exact absurd (List.mem_append_right _ (hik ▸ hin)) hi
      · rw [if_neg hik, mapKeys, mapKeys, pairs_node, if_neg (by simpa using fun h => hik (hg h)),
          List.mem_cons, List.mem_append] at h
        rcases h with h | h | h
        · cases h
          exact absurd (hg hk) hik
        · exact ihk hnk h
        · exact ihr hnr h

end Forest
