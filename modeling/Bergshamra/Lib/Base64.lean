import Mathlib.Data.List.Basic

/-!
# Base64

The encoding of RFC 4648 with padding, and the decoder that takes nothing else:
no other characters, no missing padding, and no bits behind the last byte.
-/

namespace Base64

def digits : List Char :=
  "ABCDEFGHIJKLMNOPQRSTUVWXYZabcdefghijklmnopqrstuvwxyz0123456789+/".toList

/-- The digit for six bits. -/
def digit (n : Nat) : Char := digits.getD n '='

/-- The six bits of a digit. -/
def sextet? (c : Char) : Option Nat := digits.idxOf? c

def encode : List UInt8 → List Char
  | [] => []
  | [a] => [digit (a.toNat / 4), digit (a.toNat % 4 * 16), '=', '=']
  | [a, b] =>
      [digit (a.toNat / 4), digit (a.toNat % 4 * 16 + b.toNat / 16), digit (b.toNat % 16 * 4), '=']
  | a :: b :: c :: rest =>
      digit (a.toNat / 4) :: digit (a.toNat % 4 * 16 + b.toNat / 16)
        :: digit (b.toNat % 16 * 4 + c.toNat / 64) :: digit (c.toNat % 64) :: encode rest

/-- The last group, where it ends in padding. -/
def decodeLast (x y z : Char) : Option (List UInt8) :=
  if z = '=' then do
    let a ← sextet? x
    let b ← sextet? y
    if b % 16 = 0 then some [UInt8.ofNat (a * 4 + b / 16)] else none
  else do
    let a ← sextet? x
    let b ← sextet? y
    let c ← sextet? z
    if c % 4 = 0 then some [UInt8.ofNat (a * 4 + b / 16), UInt8.ofNat (b % 16 * 16 + c / 4)]
    else none

def decode : List Char → Option (List UInt8)
  | [] => some []
  | x :: y :: z :: w :: rest =>
      if rest = [] ∧ w = '=' then decodeLast x y z
      else do
        let a ← sextet? x
        let b ← sextet? y
        let c ← sextet? z
        let d ← sextet? w
        let bytes ← decode rest
        some (UInt8.ofNat (a * 4 + b / 16) :: UInt8.ofNat (b % 16 * 16 + c / 4)
          :: UInt8.ofNat (c % 4 * 64 + d) :: bytes)
  | _ => none

/-! ## Digits -/

theorem sextet?_digit {n : Nat} (h : n < 64) : sextet? (digit n) = some n := by
  revert n
  decide +kernel

theorem digit_ne_padding {n : Nat} (h : n < 64) : digit n ≠ '=' := by
  revert n
  decide +kernel

theorem digit_mem (n : Nat) : digit n ∈ '=' :: digits := by
  rw [digit, List.getD_eq_getElem?_getD]
  cases h : digits[n]? with
  | none => exact List.mem_cons_self
  | some c => exact List.mem_cons_of_mem _ (List.mem_of_getElem? h)

/-! ## The round trip -/

theorem ofNat_eq {b : UInt8} {n : Nat} (h : n = b.toNat) : UInt8.ofNat n = b := by
  rw [h, UInt8.ofNat_toNat]

/-- **What is encoded is decoded again.** -/
theorem decode_encode (bs : List UInt8) : decode (encode bs) = some bs := by
  induction bs using encode.induct with
  | case1 => rfl
  | case2 a =>
      have ha := a.toNat_lt
      rw [encode, decode, if_pos ⟨rfl, rfl⟩, decodeLast, if_pos rfl, sextet?_digit (by omega),
        sextet?_digit (by omega)]
      show (if _ then _ else _) = _
      rw [if_pos (by omega), ofNat_eq (b := a) (by omega)]
  | case3 a b =>
      have ha := a.toNat_lt
      have hb := b.toNat_lt
      rw [encode, decode, if_pos ⟨rfl, rfl⟩, decodeLast, if_neg (digit_ne_padding (by omega)),
        sextet?_digit (by omega), sextet?_digit (by omega), sextet?_digit (by omega)]
      show (if _ then _ else _) = _
      rw [if_pos (by omega), ofNat_eq (b := a) (by omega), ofNat_eq (b := b) (by omega)]
  | case4 a b c rest ih =>
      have ha := a.toNat_lt
      have hb := b.toNat_lt
      have hc := c.toNat_lt
      rw [encode, decode, if_neg (fun h => digit_ne_padding (by omega) h.2),
        sextet?_digit (by omega), sextet?_digit (by omega), sextet?_digit (by omega),
        sextet?_digit (by omega), ih]
      show some (_ :: _ :: _ :: rest) = _
      rw [ofNat_eq (b := a) (by omega), ofNat_eq (b := b) (by omega), ofNat_eq (b := c) (by omega)]

/-- Nothing but digits and padding is written. -/
theorem mem_encode {bs : List UInt8} {x : Char} (h : x ∈ encode bs) : x ∈ '=' :: digits := by
  induction bs using encode.induct with
  | case1 => cases h
  | case2 a =>
      simp only [encode, List.mem_cons, List.not_mem_nil, or_false] at h
      rcases h with rfl | rfl | rfl | rfl
      · exact digit_mem _
      · exact digit_mem _
      · exact List.mem_cons_self
      · exact List.mem_cons_self
  | case3 a b =>
      simp only [encode, List.mem_cons, List.not_mem_nil, or_false] at h
      rcases h with rfl | rfl | rfl | rfl
      · exact digit_mem _
      · exact digit_mem _
      · exact digit_mem _
      · exact List.mem_cons_self
  | case4 a b c rest ih =>
      simp only [encode, List.mem_cons] at h
      rcases h with rfl | rfl | rfl | rfl | h
      · exact digit_mem _
      · exact digit_mem _
      · exact digit_mem _
      · exact digit_mem _
      · exact ih h

end Base64
