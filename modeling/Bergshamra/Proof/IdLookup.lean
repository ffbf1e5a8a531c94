import Bergshamra.Proof.Selects

/-!
# What an id denotes

`build_id_map` refuses a document in which an id value occurs twice, so in a map
it returns an id denotes exactly the elements that carry it, of which there is
at most one. Seen from below, whether a node is in the subtree of the element an
id denotes is decided by the elements above the node.
-/

namespace Bergshamra

/-- Does the element carry the id value, in one of the attributes or in `xml:id`? -/
def hasId (up : Uppsala) (attrNames : List String) (id : String) (e : Element) : Bool :=
  (attrNames ++ ["xml:id"]).any (fun a => up.getAttribute e a == some id)

theorem mem_idEntries_iff {up : Uppsala} {attrNames : List String} {doc : Document} {id : String}
    {n : Node} :
    (id, n) ∈ idEntries up attrNames doc
      ↔ n ∈ doc.descendants ∧ n.element?.any (hasId up attrNames id) = true := by
  unfold idEntries
  rw [List.mem_flatMap]
  constructor
  · rintro ⟨m, hm, hin⟩
    cases he : m.element? with
    | none => simp [he] at hin
    | some e =>
        simp only [he, List.mem_filterMap, Option.map_eq_some_iff] at hin
        obtain ⟨a, ha, v, hv, hpair⟩ := hin
        obtain ⟨rfl, rfl⟩ := Prod.mk.inj hpair
        refine ⟨hm, ?_⟩
        rw [he, Option.any_some, hasId, List.any_eq_true]
        exact ⟨a, ha, by rw [hv]; simp⟩
  · rintro ⟨hn, h⟩
    refine ⟨n, hn, ?_⟩
    cases he : n.element? with
    | none => simp [he] at h
    | some e =>
        rw [he, Option.any_some, hasId, List.any_eq_true] at h
        obtain ⟨a, ha, hv⟩ := h
        rw [beq_iff_eq] at hv
        simp only [List.mem_filterMap, Option.map_eq_some_iff]
        exact ⟨a, ha, id, hv, rfl⟩

/-- Inserting with no error meets no value twice. -/
theorem insertIds_nodup {m m' : IdMap} {ps : List (String × Node)} (h : insertIds m ps = .ok m')
    (hm : (m.map Prod.fst).Nodup) : (m'.map Prod.fst).Nodup := by
  induction ps generalizing m with
  | nil =>
      cases h
      exact hm
  | cons p ps ih =>
      rw [insertIds] at h
      split at h
      · simp at h
      · rename_i hnew
        refine ih h ?_
        rw [List.map_append, List.nodup_append]
        refine ⟨hm, by simp, ?_⟩
        intro a ha b hb hab
        rw [List.map_singleton, List.mem_singleton] at hb
        subst hab hb
        obtain ⟨q, hq, hk⟩ := List.mem_map.mp ha
        apply hnew
        rw [IdMap.get?, Option.isSome_map, List.find?_isSome]
        exact ⟨q, hq, by simp [hk]⟩

theorem buildIdMap_nodup {up : Uppsala} {doc : Document} {attrNames : List String} {m : IdMap}
    (h : buildIdMap up doc attrNames = .ok m) : (m.map Prod.fst).Nodup :=
  insertIds_nodup h (by simp)

/-- With distinct values an entry is what a lookup finds. -/
theorem IdMap.get?_of_mem {m : IdMap} (hm : (m.map Prod.fst).Nodup) {id : String} {n : Node}
    (h : (id, n) ∈ m) : m.get? id = some n := by
  cases hg : m.get? id with
  | none =>
      rw [IdMap.get?, Option.map_eq_none_iff, List.find?_eq_none] at hg
      have := hg _ h
      simp at this
  | some n' =>
      have h' := IdMap.mem_of_get? hg
      have := List.inj_on_of_nodup_map hm h h' rfl
      rw [(Prod.mk.inj this).2]

theorem IdMap.get?_iff_mem {m : IdMap} (hm : (m.map Prod.fst).Nodup) {id : String} {n : Node} :
    m.get? id = some n ↔ (id, n) ∈ m :=
  ⟨IdMap.mem_of_get?, IdMap.get?_of_mem hm⟩

/-- **An id denotes the element that carries it.** -/
theorem get?_buildIdMap {up : Uppsala} {doc : Document} {attrNames : List String} {m : IdMap}
    (h : buildIdMap up doc attrNames = .ok m) {id : String} {n : Node} :
    m.get? id = some n ↔ n ∈ doc.descendants ∧ n.element?.any (hasId up attrNames id) = true := by
  have hm := buildIdMap_ok h
  rw [← mem_idEntries_iff, ← hm]
  exact IdMap.get?_iff_mem (buildIdMap_nodup h)

theorem exists_suffix_iff {α : Type} (test : α → Bool) (l : List α) :
    (∃ a t, a :: t <:+ l ∧ (a :: t).head?.any test = true) ↔ l.any test = true := by
  rw [List.any_eq_true]
  constructor
  · rintro ⟨a, t, hs, ha⟩
    exact ⟨a, hs.subset List.mem_cons_self, ha⟩
  · rintro ⟨a, ha, ht⟩
    obtain ⟨l₁, l₂, rfl⟩ := List.append_of_mem ha
    exact ⟨a, l₂, ⟨l₁, rfl⟩, ht⟩

/-- **Below the element an id denotes** are the nodes with an element above them, or themselves
one, that carries the id. -/
theorem below_id_iff {up : Uppsala} {doc : Document} {attrNames : List String} {m : IdMap}
    (h : buildIdMap up doc attrNames = .ok m) {id : String} {c : Node} (hc : c ∈ doc.descendants) :
    (∃ t, m.get? id = some t ∧ c.key ∈ t.subtreeKeys)
      ↔ c.elements.any (hasId up attrNames id) = true := by
  have hsub := mem_subtreesOf_iff (q := fun es => es.head?.any (hasId up attrNames id) = true)
    mem_filter_element hc
  rw [← exists_suffix_iff, ← hsub]
  simp only [subtreesOf, NodeSet.fromIds, List.mem_toFinset, List.mem_flatMap, List.mem_filter,
    get?_buildIdMap h]

end Bergshamra
