import Bergshamra.Lib.Writer

/-!
# Where the nodes of a written forest stand

A forest is written from left to right: a leaf as some text, a node as an
opening text, the row below it and a closing text. Every node then has a place:
the text before it, its own, and the text after it. Writing another node in its
place changes nothing before and after.

`Frame ks` relates two forests that differ in nothing but the rows below the
nodes `ks`.
-/

namespace Forest

variable {ι κ α β : Type}

/-- How the payloads of a forest are written. -/
structure Spelling (α β : Type) where
  opening : α → List Char
  closing : α → List Char
  leaf : β → List Char

section Text

variable (sp : Spelling α β)

/-- The text of a forest. -/
def text (f : Forest ι α β) : List Char := f.print sp.opening sp.closing sp.leaf

/-- A node with what lies below it. -/
def nodeText (a : α) (kids : Forest ι α β) : List Char :=
  sp.opening a ++ kids.text sp ++ sp.closing a

variable [DecidableEq ι]

/-- The text before the item with key `k`. -/
def textBefore (k : ι) : Forest ι α β → List Char
  | .nil => []
  | .leaf i b rest => if i = k then [] else sp.leaf b ++ rest.textBefore k
  | .node i a kids rest =>
      if i = k then []
      else if k ∈ kids.keys then sp.opening a ++ kids.textBefore k
      else nodeText sp a kids ++ rest.textBefore k

/-- The text after the item with key `k`. -/
def textAfter (k : ι) : Forest ι α β → List Char
  | .nil => []
  | .leaf i _ rest => if i = k then rest.text sp else rest.textAfter k
  | .node i a kids rest =>
      if i = k then rest.text sp
      else if k ∈ kids.keys then kids.textAfter k ++ sp.closing a ++ rest.text sp
      else rest.textAfter k

/-- Put a row in the place of the item with key `k`. -/
def substitute (f : Forest ι α β) (k : ι) (r : Forest ι α β) : Forest ι α β :=
  match f with
  | .nil => .nil
  | .leaf i b rest => if i = k then r.append rest else .leaf i b (rest.substitute k r)
  | .node i a kids rest =>
      if i = k then r.append rest
      else if k ∈ kids.keys then .node i a (kids.substitute k r) rest
      else .node i a kids (rest.substitute k r)

end Text

section

variable {sp : Spelling α β}

@[simp] theorem text_nil : (nil : Forest ι α β).text sp = [] := rfl

@[simp] theorem text_leaf (i : ι) (b : β) (rest : Forest ι α β) :
    (leaf i b rest).text sp = sp.leaf b ++ rest.text sp := rfl

theorem text_node (i : ι) (a : α) (kids rest : Forest ι α β) :
    (node i a kids rest).text sp = nodeText sp a kids ++ rest.text sp := rfl

theorem text_mapKeys (g : ι → κ) (f : Forest ι α β) : (f.mapKeys g).text sp = f.text sp := by
  induction f with
  | nil => rfl
  | leaf i b rest ih => rw [mapKeys, text_leaf, text_leaf, ih]
  | node i a kids rest ihk ihr =>
      rw [mapKeys, text_node, text_node, nodeText, nodeText, ihk, ihr]

theorem text_append (f g : Forest ι α β) : (f.append g).text sp = f.text sp ++ g.text sp :=
  print_append sp.opening sp.closing sp.leaf f g

variable [DecidableEq ι]

/-- **The place of a node.** What is written there can be exchanged for any row. -/
theorem text_substitute {k : ι} {f : Forest ι α β} (hn : f.keys.Nodup) (hk : k ∈ f.keys)
    (r : Forest ι α β) :
    (f.substitute k r).text sp = f.textBefore sp k ++ r.text sp ++ f.textAfter sp k := by
  induction f with
  | nil => cases hk
  | leaf i b rest ih =>
      rw [keys_leaf, List.nodup_cons] at hn
      rw [substitute, textBefore, textAfter]
      by_cases hik : i = k
      · rw [if_pos hik, if_pos hik, if_pos hik, text_append, List.nil_append]
      · have hrest : k ∈ rest.keys := (List.mem_cons.mp hk).resolve_left (Ne.symm hik)
        rw [if_neg hik, if_neg hik, if_neg hik, text_leaf, ih hn.2 hrest]
        simp only [List.append_assoc]
  | node i a kids rest ihk ihr =>
      rw [keys_node, List.nodup_cons, List.nodup_append] at hn
      obtain ⟨-, hnk, hnr, -⟩ := hn
      rw [substitute, textBefore, textAfter]
      by_cases hik : i = k
      · rw [if_pos hik, if_pos hik, if_pos hik, text_append, List.nil_append]
      · rw [if_neg hik, if_neg hik, if_neg hik]
        by_cases hkids : k ∈ kids.keys
        · rw [if_pos hkids, if_pos hkids, if_pos hkids, text_node, nodeText, ihk hnk hkids]
          simp only [List.append_assoc]
        · have hrest : k ∈ rest.keys := by
            rw [keys_node, List.mem_cons, List.mem_append] at hk
            exact (hk.resolve_left (Ne.symm hik)).resolve_left hkids
          rw [if_neg hkids, if_neg hkids, if_neg hkids, text_node, ihr hnr hrest]
          simp only [List.append_assoc]

/-- A node in the place of a node. -/
theorem substitute_node {k : ι} {f : Forest ι α β} (hn : f.keys.Nodup) {path : List (ι × α)}
    {c : Cursor ι α β} (hc : c ∈ f.cursors path) (hk : c.key = k) {a : α} {kids : Forest ι α β}
    (hi : c.item = .node a kids) (a' : α) (kids' : Forest ι α β) :
    f.substitute k (.node k a' kids' .nil) = f.replaceNode k a' kids' := by
  induction f generalizing path with
  | nil => cases hc
  | leaf i b rest ih =>
      rw [keys_leaf, List.nodup_cons] at hn
      rcases List.mem_cons.mp hc with rfl | hc
      · cases hi
      · have hik : i ≠ k := by
          rintro rfl
          exact hn.1 (hk ▸ mem_cursors_key hc)
        rw [substitute, if_neg hik, replaceNode, ih hn.2 hc]
  | node i a₀ kids₀ rest ihk ihr =>
      have hn' := hn
      rw [keys_node, List.nodup_cons, List.nodup_append] at hn'
      obtain ⟨hi₀, hnk, hnr, hd⟩ := hn'
      rw [substitute, replaceNode]
      by_cases hik : i = k
      · subst hik
        rw [if_pos rfl, if_pos rfl]
        rfl
      · rw [if_neg hik, if_neg hik]
        rw [cursors, List.mem_cons, List.mem_append] at hc
        rcases hc with rfl | hc | hc
        · exact absurd hk hik
        · have hkids : k ∈ kids₀.keys := hk ▸ mem_cursors_key hc
          have hrest : k ∉ rest.keys := fun h => hd k hkids k h rfl
          rw [if_pos hkids, ihk hnk hc, replaceNode_of_not_mem a' kids' hrest]
        · have hrest : k ∈ rest.keys := hk ▸ mem_cursors_key hc
          have hkids : k ∉ kids₀.keys := fun h => hd k h k hrest rfl
          rw [if_neg hkids, ihr hnr hc, replaceNode_of_not_mem a' kids' hkids]

theorem text_replaceNode {k : ι} {f : Forest ι α β} (hn : f.keys.Nodup) {path : List (ι × α)}
    {c : Cursor ι α β} (hc : c ∈ f.cursors path) (hk : c.key = k) {a : α} {kids : Forest ι α β}
    (hi : c.item = .node a kids) (a' : α) (kids' : Forest ι α β) :
    (f.replaceNode k a' kids').text sp
      = f.textBefore sp k ++ nodeText sp a' kids' ++ f.textAfter sp k := by
  rw [← substitute_node hn hc hk hi, text_substitute hn (hk ▸ mem_cursors_key hc), text_node,
    text_nil, List.append_nil]

/-- What is written below a replaced node is all that counts of it. -/
theorem text_replaceNode_congr {k : ι} {a : α} {kids kids' : Forest ι α β}
    (h : kids.text sp = kids'.text sp) (f : Forest ι α β) :
    (f.replaceNode k a kids).text sp = (f.replaceNode k a kids').text sp := by
  induction f with
  | nil => rfl
  | leaf i b rest ih => rw [replaceNode, replaceNode, text_leaf, text_leaf, ih]
  | node i a₀ kids₀ rest ihk ihr =>
      rw [replaceNode, replaceNode]
      split
      · rw [text_node, text_node, nodeText, nodeText, h]
      · rw [text_node, text_node, nodeText, nodeText, ihk, ihr]

/-- A node replaced by itself. -/
theorem replaceNode_self {k : ι} {f : Forest ι α β} (hn : f.keys.Nodup) {path : List (ι × α)}
    {c : Cursor ι α β} (hc : c ∈ f.cursors path) (hk : c.key = k) {a : α} {kids : Forest ι α β}
    (hi : c.item = .node a kids) : f.replaceNode k a kids = f := by
  induction f generalizing path with
  | nil => cases hc
  | leaf i b rest ih =>
      rw [keys_leaf, List.nodup_cons] at hn
      rcases List.mem_cons.mp hc with rfl | hc
      · cases hi
      · rw [replaceNode, ih hn.2 hc]
  | node i a₀ kids₀ rest ihk ihr =>
      have hn' := hn
      rw [keys_node, List.nodup_cons, List.nodup_append] at hn'
      obtain ⟨hi₀, hnk, hnr, hd⟩ := hn'
      rw [cursors, List.mem_cons, List.mem_append] at hc
      rw [replaceNode]
      rcases hc with rfl | hc | hc
      · cases hi
        rw [if_pos hk]
      · have hkids : k ∈ kids₀.keys := hk ▸ mem_cursors_key hc
        have hik : i ≠ k := by
          rintro rfl
          exact hi₀ (List.mem_append_left _ hkids)
        have hrest : k ∉ rest.keys := fun h => hd k hkids k h rfl
        rw [if_neg hik, ihk hnk hc, replaceNode_of_not_mem a kids hrest]
      · have hrest : k ∈ rest.keys := hk ▸ mem_cursors_key hc
        have hik : i ≠ k := by
          rintro rfl
          exact hi₀ (List.mem_append_right _ hrest)
        have hkids : k ∉ kids₀.keys := fun h => hd k h k hrest rfl
        rw [if_neg hik, ihr hnr hc, replaceNode_of_not_mem a kids hkids]

/-- The whole text, cut at a node. -/
theorem text_at_node {k : ι} {f : Forest ι α β} (hn : f.keys.Nodup) {path : List (ι × α)}
    {c : Cursor ι α β} (hc : c ∈ f.cursors path) (hk : c.key = k) {a : α} {kids : Forest ι α β}
    (hi : c.item = .node a kids) :
    f.text sp = f.textBefore sp k ++ nodeText sp a kids ++ f.textAfter sp k := by
  have h := @text_replaceNode ι α β sp _ k f hn path c hc hk a kids hi a kids
  rwa [replaceNode_self hn hc hk hi] at h

end

/-- What stands before a node that lies below another. -/
theorem textBefore_kids [DecidableEq ι] {sp : Spelling α β} {k j : ι} {f : Forest ι α β}
    (hn : f.keys.Nodup) {path : List (ι × α)} {c : Cursor ι α β} (hc : c ∈ f.cursors path)
    (hk : c.key = k) {a : α} {kids : Forest ι α β} (hi : c.item = .node a kids)
    (hj : j ∈ kids.keys) :
    f.textBefore sp j = f.textBefore sp k ++ sp.opening a ++ kids.textBefore sp j := by
  have hbelow : j ∈ c.subtreeKeys := by
    rw [Cursor.subtreeKeys, Cursor.kids, hi]
    exact List.mem_cons_of_mem _ hj
  induction f generalizing path with
  | nil => cases hc
  | leaf i b rest ih =>
      rw [keys_leaf, List.nodup_cons] at hn
      rcases List.mem_cons.mp hc with rfl | hc
      · cases hi
      · have hik : i ≠ k := by
          rintro rfl
          exact hn.1 (hk ▸ mem_cursors_key hc)
        have hjr : j ∈ rest.keys := subtreeKeys_subset hc hbelow
        have hij : i ≠ j := by
          rintro rfl
          exact hn.1 hjr
        rw [textBefore, if_neg hij, textBefore, if_neg hik, ih hn.2 hc]
        simp only [List.append_assoc]
  | node i a₀ kids₀ rest ihk ihr =>
      have hn' := hn
      rw [keys_node, List.nodup_cons, List.nodup_append] at hn'
      obtain ⟨hi₀, hnk, hnr, hd⟩ := hn'
      rw [cursors, List.mem_cons, List.mem_append] at hc
      rw [textBefore, textBefore]
      rcases hc with rfl | hc | hc
      · cases hi
        have hij : i ≠ j := by
          rintro rfl
          exact hi₀ (List.mem_append_left _ hj)
        rw [if_neg hij, if_pos hj, if_pos hk]
        rfl
      · have hkk : k ∈ kids₀.keys := hk ▸ mem_cursors_key hc
        have hjk : j ∈ kids₀.keys := subtreeKeys_subset hc hbelow
        have hik : i ≠ k := by
          rintro rfl
          exact hi₀ (List.mem_append_left _ hkk)
        have hij : i ≠ j := by
          rintro rfl
          exact hi₀ (List.mem_append_left _ hjk)
        rw [if_neg hij, if_pos hjk, if_neg hik, if_pos hkk, ihk hnk hc]
        simp only [List.append_assoc]
      · have hkr : k ∈ rest.keys := hk ▸ mem_cursors_key hc
        have hjr : j ∈ rest.keys := subtreeKeys_subset hc hbelow
        have hik : i ≠ k := by
          rintro rfl
          exact hi₀ (List.mem_append_right _ hkr)
        have hij : i ≠ j := by
          rintro rfl
          exact hi₀ (List.mem_append_right _ hjr)
        -- neither key is in the content of the first node
        have hkk : k ∉ kids₀.keys := fun hm => hd k hm k hkr rfl
        have hjk : j ∉ kids₀.keys := fun hm => hd j hm j hjr rfl
        rw [if_neg hij, if_neg hjk, if_neg hik, if_neg hkk, ihr hnr hc]
        simp only [List.append_assoc]

/-! ## Frames -/

/-- The second forest is the first with other rows below the nodes `ks`; keys do not count. -/
def Frame [DecidableEq ι] (ks : List ι) : Forest ι α β → Forest κ α β → Prop
  | .nil, .nil => True
  | .leaf _ b rest, .leaf _ b' rest' => b = b' ∧ Frame ks rest rest'
  | .node i a kids rest, .node _ a' kids' rest' =>
      a = a' ∧ (i ∈ ks ∨ Frame ks kids kids') ∧ Frame ks rest rest'
  | _, _ => False

variable [DecidableEq ι]

theorem Frame.refl (ks : List ι) (f : Forest ι α β) : Frame ks f f := by
  induction f with
  | nil => trivial
  | leaf i b rest ih => exact ⟨rfl, ih⟩
  | node i a kids rest ihk ihr => exact ⟨rfl, Or.inr ihk, ihr⟩

/-- The keys of the second forest do not count. -/
theorem Frame.of_shape {ks : List ι} {f : Forest ι α β} {g g' : Forest κ α β}
    (h : g.shape = g'.shape) (hg : Frame ks f g) : Frame ks f g' := by
  induction f generalizing g g' with
  | nil =>
      cases g with
      | nil =>
          cases g' with
          | nil => trivial
          | leaf j b r => cases h
          | node j a k r => cases h
      | leaf j b r => exact hg.elim
      | node j a k r => exact hg.elim
  | leaf i b rest ih =>
      cases g with
      | nil => exact hg.elim
      | node j a k r => exact hg.elim
      | leaf j b₁ rest₁ =>
          cases g' with
          | nil => cases h
          | node j' a k r => cases h
          | leaf j' b₂ rest₂ =>
              rw [shape_leaf, shape_leaf, Forest.leaf.injEq] at h
              obtain ⟨-, rfl, hrest⟩ := h
              exact ⟨hg.1, ih hrest hg.2⟩
  | node i a kids rest ihk ihr =>
      cases g with
      | nil => exact hg.elim
      | leaf j b r => exact hg.elim
      | node j a₁ kids₁ rest₁ =>
          cases g' with
          | nil => cases h
          | leaf j' b r => cases h
          | node j' a₂ kids₂ rest₂ =>
              rw [shape_node, shape_node, Forest.node.injEq] at h
              obtain ⟨-, rfl, hkids, hrest⟩ := h
              exact ⟨hg.1, hg.2.1.imp_right (ihk hkids), ihr hrest hg.2.2⟩

end Forest
