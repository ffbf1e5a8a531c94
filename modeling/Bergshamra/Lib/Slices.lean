import Mathlib.Data.List.Basic

/-!
# Cuts of a list

`&l[start..stop]` and `l[start..stop].copy_from_slice(src)`; nothing stands for
the fault. The lemmas say what a cut is where the list is known in parts.
-/

namespace Slices

variable {α : Type}

/-- The elements from `start` to `stop`. -/
def slice? (l : List α) (start stop : Nat) : Option (List α) :=
  if start ≤ stop ∧ stop ≤ l.length then some ((l.drop start).take (stop - start)) else none

/-- The same list with others from `start` to `stop`. -/
def copy? (l : List α) (start stop : Nat) (src : List α) : Option (List α) :=
  if start ≤ stop ∧ stop ≤ l.length ∧ src.length = stop - start then
    some (l.take start ++ src ++ l.drop stop)
  else none

theorem slice?_eq_some {l : List α} {start stop : Nat} (h₁ : start ≤ stop) (h₂ : stop ≤ l.length) :
    slice? l start stop = some ((l.drop start).take (stop - start)) := if_pos ⟨h₁, h₂⟩

theorem slice?_eq_none {l : List α} {start stop : Nat} :
    slice? l start stop = none ↔ stop < start ∨ l.length < stop := by
  rw [slice?]
  split
  · rename_i h
    simp only [reduceCtorEq, false_iff]
    omega
  · simp only [true_iff]
    omega

/-- The end of a list. -/
theorem slice?_drop {l : List α} {start : Nat} (h : start ≤ l.length) :
    slice? l start l.length = some (l.drop start) := by
  have hlen : (l.drop start).length ≤ l.length - start :=
    Nat.le_of_eq List.length_drop
  rw [slice?_eq_some h (Nat.le_refl _), List.take_of_length_le hlen]

/-- The beginning of a list. -/
theorem slice?_take {l : List α} {stop : Nat} (h : stop ≤ l.length) :
    slice? l 0 stop = some (l.take stop) := by
  rw [slice?_eq_some (Nat.zero_le _) h, List.drop_zero, Nat.sub_zero]

/-- A known part. -/
theorem slice?_middle (a b c : List α) :
    slice? (a ++ b ++ c) a.length (a.length + b.length) = some b := by
  have hfits : a.length + b.length ≤ (a ++ b ++ c).length := by
    rw [List.length_append, List.length_append]
    omega
  rw [slice?_eq_some (Nat.le_add_right _ _) hfits, Nat.add_sub_cancel_left, List.append_assoc,
    List.drop_left, List.take_left]

/-- A known part is overwritten. -/
theorem copy?_middle (a b c src : List α) (h : src.length = b.length) :
    copy? (a ++ b ++ c) a.length (a.length + b.length) src = some (a ++ src ++ c) := by
  have hfits : a.length ≤ a.length + b.length ∧ a.length + b.length ≤ (a ++ b ++ c).length
      ∧ src.length = a.length + b.length - a.length := by
    rw [List.length_append, List.length_append]
    omega
  have hfront : (a ++ b ++ c).take a.length = a := by
    rw [List.append_assoc, List.take_left]
  have hback : (a ++ b ++ c).drop (a.length + b.length) = c := by
    rw [← List.length_append, List.drop_left]
  rw [copy?, if_pos hfits, hfront, hback]

/-- Zeros are overwritten. -/
theorem copy?_replicate {z : α} {before after : Nat} (l src : List α) (tail : List α)
    (h : src.length = after) :
    copy? (l ++ List.replicate (before + after) z ++ tail) (l.length + before)
      (l.length + before + after) src = some (l ++ List.replicate before z ++ src ++ tail) := by
  have hmid := copy?_middle (l ++ List.replicate before z) (List.replicate after z) tail src
    (by rw [h, List.length_replicate])
  rw [List.length_append, List.length_replicate, List.length_replicate] at hmid
  rw [List.replicate_add, ← List.append_assoc l]
  exact hmid

end Slices
