import Mathlib.Data.Nat.Digits.Lemmas

/-!
# Decimal numerals

The numeral of a number by its digits, and from digits with zeros in front. A
number that is not negative has no numeral of a negative one.
-/

namespace Decimal

/-- The digits of a numeral. -/
theorem toDigits_eq_digits {n : Nat} (h : n ≠ 0) :
    Nat.toDigits 10 n = ((Nat.digits 10 n).map Nat.digitChar).reverse := by
  induction n using Nat.strong_induction_on with
  | _ n ih =>
      rw [Nat.digits_def' (by decide) (Nat.pos_of_ne_zero h), List.map_cons, List.reverse_cons,
        Nat.toDigits_eq_if (by decide)]
      split
      · rename_i hlt
        rw [Nat.mod_eq_of_lt hlt, Nat.div_eq_of_lt hlt, Nat.digits_zero]
        rfl
      · rw [ih (n / 10) (by omega) (by omega)]

theorem digitChar_eq_zero {d : Nat} (h : d < 10) : (Nat.digitChar d == '0') = true ↔ d = 0 := by
  have hall : ∀ d < 10, (Nat.digitChar d == '0') = true ↔ d = 0 := by decide
  exact hall d h

/-- The numeral from digits, the least significant first, without the zeros at their end. -/
theorem dropWhile_zeros {ds : List Nat} (hlt : ∀ d ∈ ds, d < 10) :
    (ds.reverse.map Nat.digitChar).dropWhile (fun c => c == '0')
      = ((Nat.digits 10 (Nat.ofDigits 10 ds)).map Nat.digitChar).reverse := by
  induction ds using List.reverseRecOn with
  | nil => rfl
  | append_singleton ds d ih =>
      have hd : d < 10 := hlt d (List.mem_append_right _ List.mem_cons_self)
      have hds : ∀ x ∈ ds, x < 10 := fun x hx => hlt x (List.mem_append_left _ hx)
      rw [List.reverse_append, List.reverse_singleton, List.singleton_append, List.map_cons]
      by_cases hzero : d = 0
      · have hsame : Nat.ofDigits 10 (ds ++ [d]) = Nat.ofDigits 10 ds := by
          rw [hzero]
          exact Nat.ofDigits_append_zero ds
        rw [List.dropWhile_cons, if_pos ((digitChar_eq_zero hd).mpr hzero), ih hds, hsame]
      · have hdigits := Nat.digits_ofDigits 10 (by decide) (ds ++ [d]) hlt (by simpa using hzero)
        have hchar : ¬ (Nat.digitChar d == '0') = true := fun h => hzero ((digitChar_eq_zero hd).mp h)
        rw [List.dropWhile_cons, if_neg hchar, hdigits, List.map_append, List.reverse_append,
          List.map_reverse]
        rfl

/-- **The numeral from digits**; a zero where nothing is left. -/
theorem numeral_of_digits {ds : List Nat} (hlt : ∀ d ∈ ds, d < 10) :
    (if (ds.reverse.map Nat.digitChar).dropWhile (fun c => c == '0') = [] then ['0']
      else (ds.reverse.map Nat.digitChar).dropWhile (fun c => c == '0'))
      = Nat.toDigits 10 (Nat.ofDigits 10 ds) := by
  rw [dropWhile_zeros hlt]
  by_cases hzero : Nat.ofDigits 10 ds = 0
  · rw [hzero]
    rfl
  · have hne : ((Nat.digits 10 (Nat.ofDigits 10 ds)).map Nat.digitChar).reverse ≠ [] := by
      rw [Ne, List.reverse_eq_nil_iff, List.map_eq_nil_iff, Nat.digits_eq_nil_iff_eq_zero]
      exact hzero
    rw [if_neg hne, toDigits_eq_digits hzero]

/-- The numeral of a negative number is not that of a number that is not. -/
theorem repr_ne_neg (m n : Nat) : Nat.repr m ≠ "-" ++ Nat.repr n := by
  intro h
  have hmem : '-' ∈ (Nat.repr m).toList := by
    rw [h, String.toList_append]
    exact List.mem_append_left _ (by decide)
  rw [Nat.toList_repr] at hmem
  exact absurd (Nat.isDigit_of_mem_toDigits (by decide) (by decide) hmem) (by decide)

end Decimal
