import Mathlib.Data.List.Sort

/-!
# Sorting and searching: what does not depend on the order

A program that sorts what it gathered from a hash set relies on two facts about
`List.insertionSort`: where the order tells the elements apart the result does
not depend on the order they came in, and where it does not, the first of equal
elements stays the first. A search does not depend on the order either, when
only one element can be found.
-/

namespace List

variable {α : Type}

theorem find?_eq_some_iff_of_unique {p : α → Bool} {l : List α}
    (hu : ∀ a ∈ l, ∀ b ∈ l, p a = true → p b = true → a = b) {a : α} :
    l.find? p = some a ↔ a ∈ l ∧ p a = true := by
  constructor
  · intro h
    exact ⟨mem_of_find?_eq_some h, find?_some h⟩
  · rintro ⟨ha, hpa⟩
    cases hf : l.find? p with
    | none => exact absurd hpa (find?_eq_none.mp hf a ha)
    | some b => rw [hu b (mem_of_find?_eq_some hf) a ha (find?_some hf) hpa]

/-- The one element to be found is found in any order. -/
theorem find?_eq_of_perm {p : α → Bool} {l l' : List α} (hp : l.Perm l')
    (hu : ∀ a ∈ l, ∀ b ∈ l, p a = true → p b = true → a = b) : l.find? p = l'.find? p := by
  have hu' : ∀ a ∈ l', ∀ b ∈ l', p a = true → p b = true → a = b :=
    fun a ha b hb => hu a (hp.mem_iff.mpr ha) b (hp.mem_iff.mpr hb)
  apply Option.ext
  intro a
  rw [find?_eq_some_iff_of_unique hu, find?_eq_some_iff_of_unique hu', hp.mem_iff]

variable {r : α → α → Prop} [DecidableRel r]

/-- The result depends on the elements only, where the order tells them apart. -/
theorem insertionSort_eq_of_perm [Std.Total r] [IsTrans α r] {l l' : List α} (hp : l.Perm l')
    (hanti : ∀ a ∈ l, ∀ b ∈ l, r a b → r b a → a = b) :
    l.insertionSort r = l'.insertionSort r := by
  have hs : (l.insertionSort r).Perm (l'.insertionSort r) :=
    ((perm_insertionSort r l).trans hp).trans (perm_insertionSort r l').symm
  refine hs.eq_of_pairwise ?_ (pairwise_insertionSort r l) (pairwise_insertionSort r l')
  intro a b ha hb hab hba
  have hal : a ∈ l := (mem_insertionSort r).mp ha
  have hbl : b ∈ l := hp.mem_iff.mpr ((mem_insertionSort r).mp hb)
  exact hanti a hal b hbl hab hba

theorem find?_orderedInsert {p : α → Bool} {a : α} (ha : p a = true → ∀ b, p b = true → r a b)
    (l : List α) : (l.orderedInsert r a).find? p = (a :: l).find? p := by
  induction l with
  | nil => rfl
  | cons b l ih =>
      by_cases hab : r a b
      · rw [orderedInsert_cons_of_le r l hab]
      · rw [orderedInsert_of_not_le r l hab, find?_cons, ih, find?_cons, find?_cons, find?_cons]
        cases hpa : p a with
        | false => rfl
        | true =>
            -- what `a` is put behind does not satisfy the test
            cases hpb : p b with
            | false => rfl
            | true => exact absurd (ha hpa b hpb) hab

/-- The first element that satisfies a test stays the first, where such elements are equal to
the order. -/
theorem find?_insertionSort {p : α → Bool} (h : ∀ a b, p a = true → p b = true → r a b)
    (l : List α) : (l.insertionSort r).find? p = l.find? p := by
  induction l with
  | nil => rfl
  | cons a l ih =>
      rw [insertionSort_cons, find?_orderedInsert (fun ha b hb => h a b ha hb), find?_cons,
        find?_cons, ih]

/-- What is inserted into a sorted list and filtered out again leaves no trace. -/
theorem filter_orderedInsert [IsTrans α r] (p : α → Bool) (a : α) {l : List α}
    (hl : l.Pairwise r) :
    (l.orderedInsert r a).filter p
      = if p a then (l.filter p).orderedInsert r a else l.filter p := by
  induction l with
  | nil => cases hpa : p a <;> simp [hpa]
  | cons b l ih =>
      rw [pairwise_cons] at hl
      by_cases hab : r a b
      · rw [orderedInsert_cons_of_le r l hab, filter_cons]
        cases hpa : p a with
        | false => rfl
        | true =>
            rw [if_pos rfl, if_pos rfl]
            -- `a` stays in front of what the filter leaves
            cases hf : (b :: l).filter p with
            | nil => rfl
            | cons c cs =>
                have hc : c ∈ b :: l := (mem_filter.mp (by rw [hf]; exact mem_cons_self)).1
                have hac : r a c := by
                  rcases mem_cons.mp hc with hc | hc
                  · exact hc ▸ hab
                  · exact IsTrans.trans a b c hab (hl.1 c hc)
                rw [orderedInsert_cons_of_le r cs hac]
      · rw [orderedInsert_of_not_le r l hab, filter_cons, ih hl.2, filter_cons]
        cases hpa : p a with
        | false => simp
        | true =>
            cases hpb : p b with
            | false => simp
            | true => simp [hab]

theorem filter_insertionSort [Std.Total r] [IsTrans α r] (p : α → Bool) (l : List α) :
    (l.insertionSort r).filter p = (l.filter p).insertionSort r := by
  induction l with
  | nil => rfl
  | cons a l ih =>
      rw [insertionSort_cons, filter_orderedInsert p a (pairwise_insertionSort r l), ih,
        filter_cons]
      cases p a <;> rfl

end List
