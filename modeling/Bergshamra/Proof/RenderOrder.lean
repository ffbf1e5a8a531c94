import Bergshamra.C14n.Render
import Bergshamra.Lib.Sort
import Mathlib.Data.String.Basic

/-!
# The two sort orders

Both orders put what has no prefix or no namespace first. The empty string is
below every other string anyway, so the order of the declarations is that of
their prefixes and the order of the attributes the lexicographic one of URI and
local name. Both are total, and they tell apart what has different keys.
-/

namespace Bergshamra

theorem empty_le_string (s : String) : "" ≤ s := by
  refine le_of_not_gt ?_
  intro h
  rw [String.lt_iff_toList_lt] at h
  exact List.not_lt_nil s.toList h

theorem empty_lt_string {s : String} (h : s ≠ "") : "" < s :=
  lt_of_le_of_ne (empty_le_string s) (Ne.symm h)

/-! ## Declarations -/

theorem NsDecl.le_iff {a b : NsDecl} : NsDecl.le a b ↔ a.pfx ≤ b.pfx := by
  show NsDecl.cmp a b ≠ .gt ↔ _
  unfold NsDecl.cmp
  cases ha : a.pfx.isEmpty with
  | true =>
      have he : a.pfx = "" := String.isEmpty_iff.mp ha
      cases hb : b.pfx.isEmpty with
      | true => exact compare_le_iff_le
      | false => simp [he, empty_le_string]
  | false =>
      cases hb : b.pfx.isEmpty with
      | true =>
          have he : b.pfx = "" := String.isEmpty_iff.mp hb
          have hlt : "" < a.pfx := empty_lt_string (by intro h; simp [h] at ha)
          rw [he]
          exact iff_of_false (by simp) (not_le_of_gt hlt)
      | false => exact compare_le_iff_le

instance : Std.Total NsDecl.le where
  total a b := by
    rw [NsDecl.le_iff, NsDecl.le_iff]
    exact le_total a.pfx b.pfx

instance : IsTrans NsDecl NsDecl.le where
  trans a b c := by
    rw [NsDecl.le_iff, NsDecl.le_iff, NsDecl.le_iff]
    exact le_trans

/-- Declarations of different prefixes come out in one order. -/
theorem sortNsDecls_eq_of_perm {ds ds' : List NsDecl} (hp : ds.Perm ds')
    (hu : ∀ a ∈ ds, ∀ b ∈ ds, a.pfx = b.pfx → a = b) : sortNsDecls ds = sortNsDecls ds' := by
  refine List.insertionSort_eq_of_perm hp ?_
  intro a ha b hb hab hba
  exact hu a ha b hb (le_antisymm (NsDecl.le_iff.mp hab) (NsDecl.le_iff.mp hba))

@[simp] theorem mem_sortNsDecls {ds : List NsDecl} {d : NsDecl} :
    d ∈ sortNsDecls ds ↔ d ∈ ds := List.mem_insertionSort NsDecl.le

theorem sorted_sortNsDecls (ds : List NsDecl) :
    (sortNsDecls ds).Pairwise (fun a b => a.pfx ≤ b.pfx) :=
  (List.pairwise_insertionSort NsDecl.le ds).imp NsDecl.le_iff.mp

/-! ## Attributes -/

theorem Attr.le_iff {a b : Attr} :
    Attr.le a b ↔ a.nsUri < b.nsUri ∨ a.nsUri = b.nsUri ∧ a.localName ≤ b.localName := by
  show Attr.cmp a b ≠ .gt ↔ _
  unfold Attr.cmp
  -- attributes without a namespace come first, and the empty string is the least
  cases ha : a.nsUri.isEmpty with
  | true =>
      have he : a.nsUri = "" := String.isEmpty_iff.mp ha
      cases hb : b.nsUri.isEmpty with
      | true =>
          have he' : b.nsUri = "" := String.isEmpty_iff.mp hb
          rw [he, he']
          simpa using compare_le_iff_le
      | false =>
          have hlt : "" < b.nsUri := empty_lt_string (by intro h; simp [h] at hb)
          rw [he]
          exact iff_of_true (by simp) (.inl hlt)
  | false =>
      have hne : "" < a.nsUri := empty_lt_string (by intro h; simp [h] at ha)
      cases hb : b.nsUri.isEmpty with
      | true =>
          have he' : b.nsUri = "" := String.isEmpty_iff.mp hb
          rw [he']
          refine iff_of_false (by simp) ?_
          rintro (h | ⟨h, -⟩)
          · exact absurd h (not_lt_of_ge (le_of_lt hne))
          · rw [h] at hne
            exact absurd hne (lt_irrefl _)
      | false =>
          rcases lt_trichotomy a.nsUri b.nsUri with h | h | h
          · simp only [compare_lt_iff_lt.mpr h]
            exact iff_of_true (by simp) (.inl h)
          · simp only [compare_eq_iff_eq.mpr h, Ordering.then]
            rw [compare_le_iff_le]
            exact ⟨fun hl => .inr ⟨h, hl⟩, fun hl => by
              rcases hl with hl | ⟨-, hl⟩
              · exact absurd hl (by rw [h]; exact lt_irrefl _)
              · exact hl⟩
          · simp only [compare_gt_iff_gt.mpr h]
            refine iff_of_false (by simp) ?_
            rintro (hl | ⟨hl, -⟩)
            · exact absurd hl (not_lt_of_ge (le_of_lt h))
            · rw [hl] at h
              exact absurd h (lt_irrefl _)

instance : Std.Total Attr.le where
  total a b := by
    rw [Attr.le_iff, Attr.le_iff]
    rcases lt_trichotomy a.nsUri b.nsUri with h | h | h
    · exact .inl (.inl h)
    · rcases le_total a.localName b.localName with hl | hl
      · exact .inl (.inr ⟨h, hl⟩)
      · exact .inr (.inr ⟨h.symm, hl⟩)
    · exact .inr (.inl h)

instance : IsTrans Attr Attr.le where
  trans a b c := by
    rw [Attr.le_iff, Attr.le_iff, Attr.le_iff]
    rintro (hab | ⟨hab, hl⟩) (hbc | ⟨hbc, hl'⟩)
    · exact .inl (lt_trans hab hbc)
    · exact .inl (hbc ▸ hab)
    · exact .inl (hab ▸ hbc)
    · exact .inr ⟨hab.trans hbc, le_trans hl hl'⟩

/-- Attributes of different names come out in one order. -/
theorem sortAttrs_eq_of_perm {as as' : List Attr} (hp : as.Perm as')
    (hu : ∀ a ∈ as, ∀ b ∈ as, a.nsUri = b.nsUri → a.localName = b.localName → a = b) :
    sortAttrs as = sortAttrs as' := by
  refine List.insertionSort_eq_of_perm hp ?_
  intro a ha b hb hab hba
  rw [Attr.le_iff] at hab hba
  rcases hab with hab | ⟨hn, hl⟩
  · rcases hba with hba | ⟨hn', -⟩
    · exact absurd hba (not_lt_of_ge (le_of_lt hab))
    · rw [hn'] at hab
      exact absurd hab (lt_irrefl _)
  · rcases hba with hba | ⟨-, hl'⟩
    · rw [hn] at hba
      exact absurd hba (lt_irrefl _)
    · exact hu a ha b hb hn (le_antisymm hl hl')

@[simp] theorem mem_sortAttrs {as : List Attr} {a : Attr} : a ∈ sortAttrs as ↔ a ∈ as :=
  List.mem_insertionSort Attr.le

/-- Sorting what is sorted changes nothing. -/
@[simp] theorem sortAttrs_sortAttrs (as : List Attr) : sortAttrs (sortAttrs as) = sortAttrs as :=
  (List.pairwise_insertionSort Attr.le as).insertionSort_eq

theorem sorted_sortAttrs (as : List Attr) : (sortAttrs as).Pairwise Attr.le :=
  List.pairwise_insertionSort Attr.le as

end Bergshamra
