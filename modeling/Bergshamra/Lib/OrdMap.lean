import Std.Data.ExtTreeMap
import Mathlib.Data.List.Pairwise

/-!
# Ordered maps: folding one map into another

`Std.ExtTreeMap` has a lookup lemma for each single operation. Code that
overlays one map on another goes through the entries of the upper map one by
one; since those entries have distinct keys, the overlay can be read key by key.
-/

namespace OrdMap

open Std

variable {κ ν : Type} [Ord κ] [TransOrd κ]

/-- An update that only touches its own key, where it leaves `g`. -/
structure KeyedStep (step : ExtTreeMap κ ν → κ → ν → ExtTreeMap κ ν)
    (g : κ → ν → Option ν) : Prop where
  self : ∀ m k v, (step m k v)[k]? = g k v
  other : ∀ m k v p, p ≠ k → (step m k v)[p]? = m[p]?

theorem getElem?_foldl_of_not_mem {step : ExtTreeMap κ ν → κ → ν → ExtTreeMap κ ν}
    {g : κ → ν → Option ν} (hs : KeyedStep step g) (l : List (κ × ν)) (m : ExtTreeMap κ ν)
    (p : κ) (hp : ∀ kv ∈ l, p ≠ kv.1) :
    (l.foldl (fun m kv => step m kv.1 kv.2) m)[p]? = m[p]? := by
  induction l generalizing m with
  | nil => rfl
  | cons kv l ih =>
      rw [List.foldl_cons, ih _ (fun x hx => hp x (List.mem_cons_of_mem _ hx))]
      exact hs.other m kv.1 kv.2 p (hp kv List.mem_cons_self)

theorem getElem?_foldl_of_mem {step : ExtTreeMap κ ν → κ → ν → ExtTreeMap κ ν}
    {g : κ → ν → Option ν} (hs : KeyedStep step g) {l : List (κ × ν)}
    (hl : l.Pairwise (fun a b => a.1 ≠ b.1)) (m : ExtTreeMap κ ν) {p : κ} {v : ν}
    (hp : (p, v) ∈ l) : (l.foldl (fun m kv => step m kv.1 kv.2) m)[p]? = g p v := by
  induction l generalizing m with
  | nil => exact absurd hp (by simp)
  | cons kv l ih =>
      rw [List.foldl_cons]
      rw [List.pairwise_cons] at hl
      rcases List.mem_cons.mp hp with h | h
      · subst h
        rw [getElem?_foldl_of_not_mem hs l _ p (fun x hx => hl.1 x hx)]
        exact hs.self m p v
      · exact ih hl.2 _ h

variable [LawfulEqOrd κ]

theorem toList_pairwise_ne (m : ExtTreeMap κ ν) : m.toList.Pairwise (fun a b => a.1 ≠ b.1) := by
  refine m.distinct_keys_toList.imp ?_
  intro a b h he
  exact h (by rw [he]; exact ReflOrd.compare_self)

/-- Overlaying `top` on `m`, key by key. -/
theorem getElem?_overlay {step : ExtTreeMap κ ν → κ → ν → ExtTreeMap κ ν}
    {g : κ → ν → Option ν} (hs : KeyedStep step g) (top m : ExtTreeMap κ ν) (p : κ) :
    (top.toList.foldl (fun m kv => step m kv.1 kv.2) m)[p]?
      = match top[p]? with
        | some v => g p v
        | none => m[p]? := by
  cases h : top[p]? with
  | some v =>
      exact getElem?_foldl_of_mem hs (toList_pairwise_ne top) m
        (ExtTreeMap.mem_toList_iff_getElem?_eq_some.mpr h)
  | none =>
      refine getElem?_foldl_of_not_mem hs _ m p ?_
      intro kv hkv he
      have := ExtTreeMap.mem_toList_iff_getElem?_eq_some.mp hkv
      rw [← he, h] at this
      exact absurd this (by simp)

theorem getElem?_insert_ne (m : ExtTreeMap κ ν) {k p : κ} (v : ν) (h : p ≠ k) :
    (m.insert k v)[p]? = m[p]? := by
  rw [ExtTreeMap.getElem?_insert, if_neg]
  intro he
  exact h (LawfulEqOrd.eq_of_compare he).symm

theorem getElem?_erase_ne (m : ExtTreeMap κ ν) {k p : κ} (h : p ≠ k) :
    (m.erase k)[p]? = m[p]? := by
  rw [ExtTreeMap.getElem?_erase, if_neg]
  intro he
  exact h (LawfulEqOrd.eq_of_compare he).symm

/-- Setting a key to a value, or clearing it, as the value decides. -/
theorem keyedStep_ite (drop : κ → ν → Bool) (val : κ → ν → ν) :
    KeyedStep (fun (m : ExtTreeMap κ ν) k v => if drop k v then m.erase k else m.insert k (val k v))
      (fun k v => if drop k v then none else some (val k v)) where
  self := by
    intro m k v
    split <;> simp
  other := by
    intro m k v p h
    split
    · exact getElem?_erase_ne m h
    · exact getElem?_insert_ne m _ h

end OrdMap
