import Bergshamra.Lib.AlikeBut
import Bergshamra.Lib.Spans

/-!
# A row in the place of a node

`substitute` puts a row where the item with a key stands. What comes out does not
depend on the keys (`mapKeys_substitute`), and a change below the node that goes
leaves no trace: the node keeps its place, so the text around it and the row that
takes its place are the same (`samePlace_replaceNode`).
-/

namespace Forest

variable {ι κ α β : Type}

theorem mapKeys_append (g : ι → κ) (f f' : Forest ι α β) :
    (f.append f').mapKeys g = (f.mapKeys g).append (f'.mapKeys g) := by
  induction f with
  | nil => rfl
  | leaf i b rest ih => exact congrArg (leaf (g i) b) ih
  | node i a kids rest _ ihr => exact congrArg (node (g i) a (kids.mapKeys g)) ihr

variable {path : List (ι × α)} {f : Forest ι α β} {c : Cursor ι α β} [DecidableEq ι]

/-- Rows of one shape in the place of the row below a node. -/
theorem shape_replaceNode_congr {k : ι} {a : α} {kids kids' : Forest ι α β}
    (h : kids.shape = kids'.shape) (f : Forest ι α β) :
    (f.replaceNode k a kids).shape = (f.replaceNode k a kids').shape := by
  induction f with
  | nil => rfl
  | leaf i b rest ih => exact congrArg (leaf () b) ih
  | node i a₀ kids₀ rest ihk ihr =>
      rw [replaceNode, replaceNode]
      split
      · exact congrArg (fun s => node () a s rest.shape) h
      · exact congrArg₂ (node () a₀) ihk ihr

/-! ## The place of a node -/

/-- The item with the key `k` has one place in both forests: the same text before and after it, and
a row that takes its place leaves the same. -/
structure SamePlace (sp : Spelling α β) (k : ι) (f f' : Forest ι α β) : Prop where
  mem : k ∈ f'.keys
  substitute : ∀ r, f'.substitute k r = f.substitute k r
  before : f'.textBefore sp k = f.textBefore sp k
  after : f'.textAfter sp k = f.textAfter sp k

/-- **A change below a node does not move it.** -/
theorem samePlace_replaceNode (sp : Spelling α β) (hn : f.keys.Nodup) (hc : c ∈ f.cursors path)
    {j : ι} (hj : j ∈ c.kids.keys) (a' : α) (kids' : Forest ι α β) :
    SamePlace sp c.key f (f.replaceNode j a' kids') := by
  induction f generalizing path with
  | nil => cases hc
  | leaf i b rest ih =>
      rw [keys_leaf, List.nodup_cons] at hn
      rcases List.mem_cons.mp hc with rfl | hc
      · cases hj
      · have hne : i ≠ c.key := fun h => hn.1 (h ▸ mem_cursors_key hc)
        obtain ⟨hmem, hsub, hbefore, hafter⟩ := ih hn.2 hc
        refine ⟨List.mem_cons_of_mem i hmem, fun r => ?_, ?_, ?_⟩
        · rw [replaceNode, substitute, substitute, if_neg hne, if_neg hne, hsub]
        · rw [replaceNode, textBefore, textBefore, if_neg hne, if_neg hne, hbefore]
        · rw [replaceNode, textAfter, textAfter, if_neg hne, if_neg hne, hafter]
  | node i a kids rest ihk ihr =>
      rw [keys_node, List.nodup_cons, List.nodup_append] at hn
      obtain ⟨hi, hnk, hnr, hd⟩ := hn
      rw [cursors, List.mem_cons, List.mem_append] at hc
      rcases hc with rfl | hc | hc
      · -- the node itself
        have hkids : j ∈ kids.keys := hj
        have hne : i ≠ j := fun h => hi (h ▸ List.mem_append_left _ hkids)
        have hrest : j ∉ rest.keys := fun h => hd j hkids j h rfl
        rw [replaceNode, if_neg hne, replaceNode_of_not_mem a' kids' hrest]
        refine ⟨List.mem_cons_self, fun r => ?_, ?_, ?_⟩
        · rw [substitute, substitute, if_pos rfl, if_pos rfl]
        · rw [textBefore, textBefore, if_pos rfl, if_pos rfl]
        · rw [textAfter, textAfter, if_pos rfl, if_pos rfl]
      · -- below the head: what is overwritten is there too
        have hbelow : j ∈ kids.keys := subtreeKeys_subset hc (List.mem_cons_of_mem _ hj)
        have hmemk := mem_cursors_key hc
        have hne : i ≠ c.key := fun h => hi (h ▸ List.mem_append_left _ hmemk)
        have hnej : i ≠ j := fun h => hi (h ▸ List.mem_append_left _ hbelow)
        have hrest : j ∉ rest.keys := fun h => hd j hbelow j h rfl
        obtain ⟨hmem, hsub, hbefore, hafter⟩ := ihk hnk hc
        rw [replaceNode, if_neg hnej, replaceNode_of_not_mem a' kids' hrest]
        refine ⟨List.mem_cons_of_mem i (List.mem_append_left _ hmem), fun r => ?_, ?_, ?_⟩
        · rw [substitute, substitute, if_neg hne, if_neg hne, if_pos hmem, if_pos hmemk, hsub]
        · rw [textBefore, textBefore, if_neg hne, if_neg hne, if_pos hmem, if_pos hmemk, hbefore]
        · rw [textAfter, textAfter, if_neg hne, if_neg hne, if_pos hmem, if_pos hmemk, hafter]
      · -- beside the head
        have hbelow : j ∈ rest.keys := subtreeKeys_subset hc (List.mem_cons_of_mem _ hj)
        have hmemr := mem_cursors_key hc
        have hne : i ≠ c.key := fun h => hi (h ▸ List.mem_append_right _ hmemr)
        have hnej : i ≠ j := fun h => hi (h ▸ List.mem_append_right _ hbelow)
        have hkids : j ∉ kids.keys := fun h => hd j h j hbelow rfl
        have hck : c.key ∉ kids.keys := fun h => hd _ h _ hmemr rfl
        obtain ⟨hmem, hsub, hbefore, hafter⟩ := ihr hnr hc
        rw [replaceNode, if_neg hnej, replaceNode_of_not_mem a' kids' hkids]
        refine ⟨List.mem_cons_of_mem i (List.mem_append_right _ hmem), fun r => ?_, ?_, ?_⟩
        · rw [substitute, substitute, if_neg hne, if_neg hne, if_neg hck, if_neg hck, hsub]
        · rw [textBefore, textBefore, if_neg hne, if_neg hne, if_neg hck, if_neg hck, hbefore]
        · rw [textAfter, textAfter, if_neg hne, if_neg hne, if_neg hck, if_neg hck, hafter]

section Keys

variable [DecidableEq κ] {g : ι → κ} {k : ι}

omit [DecidableEq ι] [DecidableEq κ] in
theorem mem_keys_mapKeys (hg : Function.Injective g) : g k ∈ (f.mapKeys g).keys ↔ k ∈ f.keys := by
  rw [keys_mapKeys, List.mem_map_of_injective hg]

/-- A row in the place of an item, under other keys. -/
theorem mapKeys_substitute (hg : Function.Injective g) (f r : Forest ι α β) :
    (f.substitute k r).mapKeys g = (f.mapKeys g).substitute (g k) (r.mapKeys g) := by
  induction f with
  | nil => rfl
  | leaf i b rest ih =>
      rw [substitute, mapKeys, substitute]
      by_cases hi : i = k
      · rw [if_pos hi, if_pos (congrArg g hi), mapKeys_append]
      · rw [if_neg hi, if_neg (fun h => hi (hg h)), mapKeys, ih]
  | node i a kids rest ihk ihr =>
      rw [substitute, mapKeys, substitute]
      by_cases hi : i = k
      · rw [if_pos hi, if_pos (congrArg g hi), mapKeys_append]
      · rw [if_neg hi, if_neg (fun h => hi (hg h))]
        by_cases hk : k ∈ kids.keys
        · rw [if_pos hk, if_pos ((mem_keys_mapKeys hg).mpr hk), mapKeys, ihk]
        · rw [if_neg hk, if_neg (fun h => hk ((mem_keys_mapKeys hg).mp h)), mapKeys, ihr]

variable {sp : Spelling α β}

theorem textBefore_mapKeys (hg : Function.Injective g) (f : Forest ι α β) :
    (f.mapKeys g).textBefore sp (g k) = f.textBefore sp k := by
  induction f with
  | nil => rfl
  | leaf i b rest ih =>
      rw [mapKeys, textBefore, textBefore, ih]
      by_cases hi : i = k
      · rw [if_pos hi, if_pos (congrArg g hi)]
      · rw [if_neg hi, if_neg (fun h => hi (hg h))]
  | node i a kids rest ihk ihr =>
      rw [mapKeys, textBefore, textBefore, ihk, ihr, nodeText, nodeText, text_mapKeys]
      by_cases hi : i = k
      · rw [if_pos hi, if_pos (congrArg g hi)]
      · rw [if_neg hi, if_neg (fun h => hi (hg h))]
        by_cases hk : k ∈ kids.keys
        · rw [if_pos hk, if_pos ((mem_keys_mapKeys hg).mpr hk)]
        · rw [if_neg hk, if_neg (fun h => hk ((mem_keys_mapKeys hg).mp h))]

theorem textAfter_mapKeys (hg : Function.Injective g) (f : Forest ι α β) :
    (f.mapKeys g).textAfter sp (g k) = f.textAfter sp k := by
  induction f with
  | nil => rfl
  | leaf i b rest ih =>
      rw [mapKeys, textAfter, textAfter, ih, text_mapKeys]
      by_cases hi : i = k
      · rw [if_pos hi, if_pos (congrArg g hi)]
      · rw [if_neg hi, if_neg (fun h => hi (hg h))]
  | node i a kids rest ihk ihr =>
      rw [mapKeys, textAfter, textAfter, ihk, ihr, text_mapKeys]
      by_cases hi : i = k
      · rw [if_pos hi, if_pos (congrArg g hi)]
      · rw [if_neg hi, if_neg (fun h => hi (hg h))]
        by_cases hk : k ∈ kids.keys
        · rw [if_pos hk, if_pos ((mem_keys_mapKeys hg).mpr hk)]
        · rw [if_neg hk, if_neg (fun h => hk ((mem_keys_mapKeys hg).mp h))]

end Keys

end Forest
